/-
  BlockEngine.Proofs.Double.Exact — what a double holds is rounded to that double.

  A finite double is its mantissa times a power of two, both within bounds: the mantissa takes 53
  bits, and all 53 unless the power is the least there is. So a fraction that equals the number is
  scaled to that power, where the division leaves no rest (`ofRatio_exact`).

  Proved: a number that a shorter format holds is widened to itself (`widen_narrow`).
-/

import BlockEngine.Double.Narrow
import Mathlib.Tactic.Positivity
import Mathlib.Tactic.Ring
import Mathlib.Tactic.Tauto

namespace BlockEngine.Double

/-! ## The parts of a double -/

section

variable (x : Double)

theorem magnitude_lt : x.magnitude < 2 ^ 63 := Nat.mod_lt _ (by decide)

theorem exponentField_lt : x.exponentField < 2048 := by
  have h := x.magnitude_lt
  unfold exponentField
  omega

theorem fraction_lt : x.fraction < 2 ^ 52 := Nat.mod_lt _ (by decide)

theorem magnitude_eq : x.magnitude = x.exponentField * 2 ^ 52 + x.fraction := by
  unfold exponentField fraction
  omega

theorem pack_self : pack x.isNegative x.magnitude = x := by
  have hlt := x.bits.toNat_lt
  have hbits : (if x.isNegative then 2 ^ 63 else 0) + x.magnitude = x.bits.toNat := by
    unfold isNegative magnitude
    by_cases h : 2 ^ 63 ≤ x.bits.toNat
    · simp only [h, decide_true, if_true]
      omega
    · simp only [h, decide_false, Bool.false_eq_true, if_false]
      omega
  unfold pack
  rw [hbits]
  simp

/-- How many units of the least power of two the power of the number is. -/
def unitShift : Nat := max x.exponentField 1 - 1

theorem exponent_eq : x.exponent = (x.unitShift : Int) - 1074 := by
  unfold exponent unitShift
  omega

theorem mantissa_lt : x.mantissa < 2 ^ 53 := by
  have h := x.fraction_lt
  unfold mantissa
  split <;> omega

/-- The mantissa takes 53 bits, unless the power is the least there is. -/
theorem le_mantissa (h : x.unitShift ≠ 0) : 2 ^ 52 ≤ x.mantissa := by
  unfold unitShift at h
  unfold mantissa
  split <;> omega

theorem magnitude_of_parts : x.unitShift * 2 ^ 52 + x.mantissa = x.magnitude := by
  rw [magnitude_eq]
  unfold unitShift mantissa
  split <;> omega

end

/-! ## Fractions that equal a double -/

/-- The least power of two is `2 ^ -depth`. Nothing is to compute `2 ^ depth`. -/
@[irreducible] def depth : Nat := 1074

theorem depth_eq : depth = 1074 := by
  unfold depth
  rfl

/-- The fraction equals the magnitude of the number, in units of the least power of two. -/
def IsRatio (x : Double) (num den : Nat) : Prop := num * 2 ^ depth = den * (x.mantissa * 2 ^ x.unitShift)

section

variable {x : Double} {num den : Nat} (h : x.IsRatio num den) (hden : 0 < den)
include h hden

/-- Scaled to a power of two that is at most the number's own, the fraction has no rest. -/
theorem scaled_exact {u : Nat} (hu : u ≤ x.unitShift) :
    (scaled num den ((u : Int) - 1074)).1 =
        (scaled num den ((u : Int) - 1074)).2 * (x.mantissa * 2 ^ (x.unitShift - u)) ∧
      0 < (scaled num den ((u : Int) - 1074)).2 := by
  have hdepth := depth_eq
  have hsplit : 2 ^ x.unitShift = 2 ^ (x.unitShift - u) * 2 ^ u := by
    rw [← Nat.pow_add]
    congr 1
    omega
  unfold IsRatio at h
  rw [hsplit] at h
  unfold scaled
  by_cases hq : (0 : Int) ≤ (u : Int) - 1074
  · obtain ⟨q, rfl⟩ : ∃ q, u = q + depth := ⟨u - depth, by omega⟩
    have htoNat : (((q + depth : Nat) : Int) - 1074).toNat = q := by omega
    rw [if_pos hq, htoNat]
    refine ⟨?_, by positivity⟩
    refine Nat.eq_of_mul_eq_mul_right (show 0 < 2 ^ depth by positivity) ?_
    rw [h, Nat.pow_add]
    ring
  · obtain ⟨q, hqu⟩ : ∃ q, q + u = depth := ⟨depth - u, by omega⟩
    have htoNat : (-((u : Int) - 1074)).toNat = q := by omega
    rw [if_neg hq, htoNat]
    refine ⟨?_, hden⟩
    refine Nat.eq_of_mul_eq_mul_right (show 0 < 2 ^ u by positivity) ?_
    calc num * 2 ^ q * 2 ^ u = num * 2 ^ depth := by rw [Nat.mul_assoc, ← Nat.pow_add, hqu]
      _ = den * (x.mantissa * 2 ^ (x.unitShift - u)) * 2 ^ u := by rw [h]; ring

omit hden in
theorem log2_lt (hnum : num ≠ 0) : num.log2 + depth < den.log2 + 54 + x.unitShift := by
  refine (Nat.pow_lt_pow_iff_right (show 1 < 2 by decide)).mp ?_
  calc 2 ^ (num.log2 + depth) = 2 ^ num.log2 * 2 ^ depth := Nat.pow_add ..
    _ ≤ num * 2 ^ depth := Nat.mul_le_mul_right _ (Nat.log2_self_le hnum)
    _ = den * (x.mantissa * 2 ^ x.unitShift) := h
    _ < 2 ^ (den.log2 + 1) * (2 ^ 53 * 2 ^ x.unitShift) := by
      refine Nat.mul_lt_mul_of_lt_of_le Nat.lt_log2_self ?_ (by positivity)
      exact Nat.mul_le_mul_right _ (Nat.le_of_lt x.mantissa_lt)
    _ = 2 ^ (den.log2 + 54 + x.unitShift) := by
      rw [← Nat.pow_add, ← Nat.pow_add]
      congr 1
      omega

theorem lt_log2 (hu : x.unitShift ≠ 0) : den.log2 + 52 + x.unitShift < num.log2 + 1 + depth := by
  refine (Nat.pow_lt_pow_iff_right (show 1 < 2 by decide)).mp ?_
  calc 2 ^ (den.log2 + 52 + x.unitShift) = 2 ^ den.log2 * (2 ^ 52 * 2 ^ x.unitShift) := by
        rw [← Nat.pow_add, ← Nat.pow_add]
        congr 1
        omega
    _ ≤ den * (x.mantissa * 2 ^ x.unitShift) :=
      Nat.mul_le_mul (Nat.log2_self_le (by omega)) (Nat.mul_le_mul_right _ (x.le_mantissa hu))
    _ = num * 2 ^ depth := h.symm
    _ < 2 ^ (num.log2 + 1) * 2 ^ depth := (Nat.mul_lt_mul_right (by positivity)).mpr Nat.lt_log2_self
    _ = 2 ^ (num.log2 + 1 + depth) := (Nat.pow_add ..).symm

theorem num_ne_zero (hx : x.mantissa ≠ 0) : num ≠ 0 := by
  rintro rfl
  unfold IsRatio at h
  have hpos : 0 < den * (x.mantissa * 2 ^ x.unitShift) := by positivity
  omega

/-- The power of two is found at which the number has its mantissa. -/
theorem unitExponent_exact (hx : x.mantissa ≠ 0) : unitExponent num den = (x.unitShift : Int) - 1074 := by
  have hdepth := depth_eq
  have hupper := log2_lt h (num_ne_zero h hden hx)
  have hlower := lt_log2 h hden
  have hq : ∃ u : Nat, max ((num.log2 : Int) - den.log2 - 53) (-1074) = (u : Int) - 1074 ∧
      (u = x.unitShift ∨ u + 1 = x.unitShift) := by
    refine ⟨(max ((num.log2 : Int) - den.log2 - 53) (-1074) + 1074).toNat, ?_, ?_⟩ <;> omega
  obtain ⟨u, hu, hcases⟩ := hq
  obtain ⟨hexact, hpos⟩ := scaled_exact h hden (u := u) (by omega)
  unfold unitExponent
  rw [hu]
  dsimp only
  rw [hexact, Nat.mul_div_cancel_left _ hpos]
  rcases hcases with rfl | hlt
  · have hm := x.mantissa_lt
    rw [Nat.sub_self, Nat.pow_zero, Nat.mul_one, if_pos hm]
  · have hm := x.le_mantissa (by omega)
    rw [show x.unitShift - u = 1 by omega, if_neg (by omega)]
    omega

/-- A fraction that equals a number is rounded to that number. -/
theorem ofRatio_exact (hx : x.mantissa ≠ 0) (hfin : x.isFinite = true) : ofRatio x.isNegative num den = x := by
  obtain ⟨hexact, hpos⟩ := scaled_exact h hden (Nat.le_refl _)
  have hshift : ((x.unitShift : Int) - 1074 + 1074).toNat = x.unitShift := by omega
  have hround : roundDiv (scaled num den ((x.unitShift : Int) - 1074)).1 (scaled num den ((x.unitShift : Int) - 1074)).2 =
      x.mantissa := by
    rw [Nat.sub_self, Nat.pow_zero, Nat.mul_one] at hexact
    unfold roundDiv
    rw [hexact, Nat.mul_div_cancel_left _ hpos, Nat.mul_mod_right]
    exact if_pos (by omega)
  have hlt : x.magnitude < infiniteMagnitude := by
    have hfield := x.exponentField_lt
    have hfraction := x.fraction_lt
    simp only [isFinite, bne_iff_ne, ne_eq] at hfin
    rw [magnitude_eq, infiniteMagnitude]
    omega
  unfold ofRatio
  rw [if_neg (num_ne_zero h hden hx), unitExponent_exact h hden hx]
  dsimp only
  rw [hround, hshift, magnitude_of_parts, if_pos hlt, pack_self]

end

/-- A multiple of a power of two that equals a number is rounded to that number. -/
theorem ofScaled_exact {x : Double} (hx : x.mantissa ≠ 0) (hfin : x.isFinite = true) {m u : Nat}
    (h : m * 2 ^ u = x.mantissa * 2 ^ x.unitShift) : ofScaled x.isNegative m ((u : Int) - 1074) = x := by
  have hdepth := depth_eq
  unfold ofScaled
  by_cases hq : (0 : Int) ≤ (u : Int) - 1074
  · obtain ⟨q, rfl⟩ : ∃ q, u = q + depth := ⟨u - depth, by omega⟩
    have htoNat : (((q + depth : Nat) : Int) - 1074).toNat = q := by omega
    rw [if_pos hq, htoNat]
    refine ofRatio_exact ?_ Nat.one_pos hx hfin
    unfold IsRatio
    rw [← h, Nat.pow_add]
    ring
  · obtain ⟨q, hqu⟩ : ∃ q, q + u = depth := ⟨depth - u, by omega⟩
    have htoNat : (-((u : Int) - 1074)).toNat = q := by omega
    rw [if_neg hq, htoNat]
    refine ofRatio_exact ?_ (by positivity) hx hfin
    unfold IsRatio
    rw [← h, ← hqu, Nat.pow_add]
    ring

/-! ## Shorter formats -/

namespace Format

variable {f : Format}

theorem infinite_lt_sign (f : Format) : f.infinite < f.sign := by
  unfold infinite sign
  rw [Nat.add_comm, Nat.pow_add]
  refine (Nat.mul_lt_mul_right (by positivity)).mpr ?_
  have hpos : 0 < 2 ^ f.exponentBits := by positivity
  omega

/-- The bits of a number in the format are its mantissa there, on top of how many units its power is:
    a mantissa of full length carries into the exponent field. -/
theorem magnitude?_eq_some {m u bits : Nat} (hm : m ≠ 0) (hunit : -1074 ≤ f.unit)
    (h : f.magnitude? m ((u : Int) - 1074) = some bits) :
    ∃ n k : Nat, bits = k * 2 ^ f.fractionBits + n ∧ n < 2 ^ (f.fractionBits + 1) ∧
      (k ≠ 0 → 2 ^ f.fractionBits ≤ n) ∧ n * 2 ^ (k + (f.unit + 1074).toNat) = m * 2 ^ u ∧ bits < f.infinite := by
  unfold magnitude? at h
  generalize hK : max ((m.log2 : Int) + ((u : Int) - 1074) - f.fractionBits) f.unit = K at h
  obtain ⟨w, hw⟩ : ∃ w : Nat, f.unit + 1074 = w := ⟨(f.unit + 1074).toNat, by omega⟩
  obtain ⟨k, hk⟩ : ∃ k : Nat, K - f.unit = k := ⟨(K - f.unit).toNat, by omega⟩
  -- The number is shifted down by `s` bits or up by `t`.
  obtain ⟨s, hs⟩ : ∃ s : Nat, (K - ((u : Int) - 1074)).toNat = s := ⟨_, rfl⟩
  obtain ⟨t, ht⟩ : ∃ t : Nat, ((u : Int) - 1074 - K).toNat = t := ⟨_, rfl⟩
  simp only [hs, ht, hk, Int.toNat_natCast, Option.ite_none_right_eq_some, Option.some.injEq] at h
  obtain ⟨hdvd, hlt, rfl⟩ := h
  have hn : m * 2 ^ t / 2 ^ s * 2 ^ s = m * 2 ^ t :=
    Nat.div_mul_cancel ((Nat.dvd_of_mod_eq_zero hdvd).mul_right _)
  generalize m * 2 ^ t / 2 ^ s = n at hn hlt ⊢
  refine ⟨n, k, rfl, ?_, fun hk0 => ?_, ?_, hlt⟩
  · refine Nat.lt_of_mul_lt_mul_right (a := 2 ^ s) ?_
    calc n * 2 ^ s = m * 2 ^ t := hn
      _ < 2 ^ (m.log2 + 1) * 2 ^ t := (Nat.mul_lt_mul_right (by positivity)).mpr Nat.lt_log2_self
      _ = 2 ^ (m.log2 + 1 + t) := (Nat.pow_add ..).symm
      _ ≤ 2 ^ (f.fractionBits + 1 + s) := Nat.pow_le_pow_right (by decide) (by omega)
      _ = 2 ^ (f.fractionBits + 1) * 2 ^ s := Nat.pow_add ..
  · refine Nat.le_of_mul_le_mul_right (c := 2 ^ s) ?_ (by positivity)
    calc 2 ^ f.fractionBits * 2 ^ s = 2 ^ (m.log2 + t) := by
          rw [← Nat.pow_add]
          congr 1
          omega
      _ = 2 ^ m.log2 * 2 ^ t := Nat.pow_add ..
      _ ≤ m * 2 ^ t := Nat.mul_le_mul_right _ (Nat.log2_self_le hm)
      _ = n * 2 ^ s := hn.symm
  · rw [hw, Int.toNat_natCast]
    refine Nat.eq_of_mul_eq_mul_right (show 0 < 2 ^ s by positivity) ?_
    calc n * 2 ^ (k + w) * 2 ^ s = m * 2 ^ t * 2 ^ (k + w) := by rw [← hn]; ring
      _ = m * (2 ^ (t + (k + w))) := by rw [Nat.pow_add]; ring
      _ = m * (2 ^ (u + s)) := by
        congr 2
        omega
      _ = m * 2 ^ u * 2 ^ s := by rw [Nat.pow_add]; ring

end Format

/-! ## Widening -/

theorem magnitude_of_infinite {x : Double} (h : x.isInfinite = true) : x.magnitude = infiniteMagnitude := by
  simp only [isInfinite, Bool.and_eq_true, beq_iff_eq] at h
  rw [magnitude_eq, h.1, h.2]
  rfl

theorem mantissa_ne_zero {x : Double} (h : x.isZero = false) : x.mantissa ≠ 0 := by
  simp only [isZero, beq_eq_false_iff_ne, ne_eq] at h
  rw [magnitude_eq] at h
  unfold mantissa
  split <;> omega

section

variable {f : Format} {x : Double} {bits : Nat}

/-- The sign bit on top of a magnitude can be told apart from it. -/
theorem sign_split (negative : Bool) {bits : Nat} (hbits : bits < f.sign) :
    decide (f.sign ≤ (if negative then f.sign else 0) + bits) = negative ∧
      ((if negative then f.sign else 0) + bits) % f.sign = bits := by
  cases negative with
  | true => simp [Nat.mod_eq_of_lt hbits]
  | false =>
    have hle : ¬ f.sign ≤ bits := by omega
    simp [hle, Nat.mod_eq_of_lt hbits]

theorem ofScaled_zero (negative : Bool) (q : Int) : ofScaled negative 0 q = pack negative 0 := by
  unfold ofScaled ofRatio
  split <;> simp

/-- What the magnitude bits of a number in the format stand for. -/
theorem widen_magnitude (hunit : -1074 ≤ f.unit) (hx : x.isZero = false) (hfin : x.isFinite = true)
    (h : f.magnitude? x.mantissa x.exponent = some bits) :
    bits < f.infinite ∧
      (if bits / 2 ^ f.fractionBits = 0 then ofScaled x.isNegative (bits % 2 ^ f.fractionBits) f.unit
        else ofScaled x.isNegative (2 ^ f.fractionBits + bits % 2 ^ f.fractionBits)
          (f.unit + (bits / 2 ^ f.fractionBits - 1 : Nat))) = x := by
  have hm := mantissa_ne_zero hx
  rw [exponent_eq] at h
  obtain ⟨n, k, rfl, hlt, hfull, hvalue, hfits⟩ := Format.magnitude?_eq_some hm hunit h
  obtain ⟨w, hw⟩ : ∃ w : Nat, f.unit = (w : Int) - 1074 := ⟨(f.unit + 1074).toNat, by omega⟩
  have hw' : (f.unit + 1074).toNat = w := by omega
  rw [hw'] at hvalue
  refine ⟨hfits, ?_⟩
  have hpos : 0 < 2 ^ f.fractionBits := by positivity
  by_cases hn : n < 2 ^ f.fractionBits
  · obtain rfl : k = 0 := by
      by_contra hk
      exact absurd (hfull hk) (by omega)
    rw [Nat.zero_mul, Nat.zero_add, Nat.div_eq_of_lt hn, Nat.mod_eq_of_lt hn, if_pos rfl, hw]
    rw [Nat.zero_add] at hvalue
    exact ofScaled_exact hm hfin hvalue
  · obtain ⟨r, rfl⟩ := Nat.exists_eq_add_of_le (Nat.not_lt.mp hn)
    have hr : r < 2 ^ f.fractionBits := by
      rw [Nat.pow_succ] at hlt
      omega
    have hsum : k * 2 ^ f.fractionBits + (2 ^ f.fractionBits + r) = r + 2 ^ f.fractionBits * (k + 1) := by ring
    have hfield : (k * 2 ^ f.fractionBits + (2 ^ f.fractionBits + r)) / 2 ^ f.fractionBits = k + 1 := by
      rw [hsum, Nat.add_mul_div_left _ _ hpos, Nat.div_eq_of_lt hr, Nat.zero_add]
    have hfraction : (k * 2 ^ f.fractionBits + (2 ^ f.fractionBits + r)) % 2 ^ f.fractionBits = r := by
      rw [hsum, Nat.add_mul_mod_self_left, Nat.mod_eq_of_lt hr]
    have hpower : f.unit + ((k + 1 - 1 : Nat) : Int) = ((k + w : Nat) : Int) - 1074 := by omega
    rw [hfield, hfraction, if_neg (Nat.succ_ne_zero k), hpower]
    exact ofScaled_exact hm hfin hvalue

/-- A number that a shorter format holds is widened to itself. -/
theorem widen_narrow (hunit : -1074 ≤ f.unit) (hfield : 0 < f.infinite) (h : x.narrow? f = some bits) :
    widen f bits = x := by
  have hsign := f.infinite_lt_sign
  unfold narrow? at h
  dsimp only at h
  split at h
  · cases h
  next hnan =>
  split at h
  next hinf =>
    cases h
    obtain ⟨hneg, hmag⟩ := sign_split x.isNegative hsign
    unfold widen
    rw [hneg, hmag]
    dsimp only
    rw [if_neg (Nat.lt_irrefl _), if_pos rfl, infinity, ← magnitude_of_infinite hinf, pack_self]
  next hinf =>
  split at h
  next hzero =>
    have hmagnitude : x.magnitude = 0 := by simpa [isZero] using hzero
    obtain ⟨hneg, hmag⟩ := sign_split x.isNegative (show 0 < f.sign by omega)
    rw [Nat.add_zero] at hneg hmag
    cases h
    unfold widen
    rw [hneg, hmag]
    dsimp only
    rw [if_neg (Nat.not_lt_zero _), if_neg (by omega), Nat.zero_div, Nat.zero_mod, if_pos rfl, ofScaled_zero, ← hmagnitude,
      pack_self]
  next hzero =>
    have hfin : x.isFinite = true := by
      simp only [isNaN, isInfinite, isFinite, bne_iff_ne, Bool.and_eq_true, beq_iff_eq] at hnan hinf ⊢
      tauto
    obtain ⟨magnitude, hmagnitude, rfl⟩ := Option.map_eq_some_iff.mp h
    obtain ⟨hlt, hvalue⟩ := widen_magnitude hunit (by simpa using hzero) hfin hmagnitude
    obtain ⟨hneg, hmag⟩ := sign_split x.isNegative (Nat.lt_trans hlt hsign)
    unfold widen
    rw [hneg, hmag]
    dsimp only
    rw [if_neg (by omega), if_neg (by omega)]
    exact hvalue

end

theorem Format.magnitude?_lt {f : Format} {m bits : Nat} {q : Int} (h : f.magnitude? m q = some bits) :
    bits < f.infinite := by
  simp only [magnitude?, Option.ite_none_right_eq_some, Option.some.injEq] at h
  obtain ⟨-, hlt, rfl⟩ := h
  exact hlt

/-- The bits of a number in a shorter format are a magnitude and a sign. -/
theorem narrow_lt {f : Format} {x : Double} {bits : Nat} (h : x.narrow? f = some bits) : bits < 2 * f.sign := by
  have hsign := f.infinite_lt_sign
  have hbit : (if x.isNegative then f.sign else 0) ≤ f.sign := by
    split <;> omega
  unfold narrow? at h
  dsimp only at h
  split at h
  · cases h
  split at h
  · cases h
    omega
  split at h
  · cases h
    omega
  · obtain ⟨magnitude, hmagnitude, rfl⟩ := Option.map_eq_some_iff.mp h
    have hlt := Format.magnitude?_lt hmagnitude
    omega

end BlockEngine.Double
