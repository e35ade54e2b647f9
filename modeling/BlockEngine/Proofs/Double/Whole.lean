/-
  BlockEngine.Proofs.Double.Whole — whole numbers as doubles, and the order among them.

  The order of doubles is that of the numbers they stand for (`rank_lt_iff`). A whole number becomes
  the multiple of a unit nearest to it, where the unit leaves it 53 binary digits (`nearest`); so
  what is told of the doubles of two whole numbers is told of the nearest multiples.

  Proved:
  - `nearest_closest`: no whole number of 53 digits and trailing zeros is closer.
  - `nearest_mono`, `nearest_exact`: rounding keeps the order, and leaves numbers up to 2 ^ 53 alone.
  - `ofInt_lt`, `ofInt_eq`: doubles of whole numbers compare as the rounded numbers do.
-/

import BlockEngine.Proofs.Double.Exact
import Mathlib.Tactic.Linarith

namespace BlockEngine.Double

/-! ## The order of doubles -/

def units (x : Double) : Nat := x.mantissa * 2 ^ x.unitShift

def signedUnits (x : Double) : Int := if x.isNegative then -(x.units : Int) else x.units

section

variable {x y : Double}

theorem units_lt_units (h : x.magnitude < y.magnitude) : x.units < y.units := by
  have hx := x.mantissa_lt
  have hy := y.le_mantissa
  rw [← x.magnitude_of_parts, ← y.magnitude_of_parts] at h
  unfold units
  rcases Nat.lt_trichotomy x.unitShift y.unitShift with hlt | heq | hgt
  · calc x.mantissa * 2 ^ x.unitShift < 2 ^ 53 * 2 ^ x.unitShift :=
          (Nat.mul_lt_mul_right (by positivity)).mpr hx
      _ = 2 ^ 52 * 2 ^ (x.unitShift + 1) := by ring
      _ ≤ y.mantissa * 2 ^ y.unitShift :=
          Nat.mul_le_mul (hy (by omega)) (Nat.pow_le_pow_right (by decide) hlt)
  · rw [heq] at h ⊢
    exact (Nat.mul_lt_mul_right (by positivity)).mpr (by omega)
  · -- A greater power has a mantissa of full length, which outweighs any at the smaller one.
    have hxle := x.le_mantissa (by omega)
    have hylt := y.mantissa_lt
    omega

theorem units_congr (h : x.magnitude = y.magnitude) : x.units = y.units := by
  have hfield : x.exponentField = y.exponentField := by
    unfold exponentField
    rw [h]
  have hfraction : x.fraction = y.fraction := by
    unfold fraction
    rw [h]
  unfold units mantissa unitShift
  rw [hfield, hfraction]

theorem magnitude_lt_iff : x.magnitude < y.magnitude ↔ x.units < y.units := by
  refine ⟨units_lt_units, fun h => ?_⟩
  rcases Nat.lt_trichotomy x.magnitude y.magnitude with hlt | heq | hgt
  · exact hlt
  · exact absurd (units_congr heq) (by omega)
  · exact absurd (units_lt_units hgt) (by omega)

theorem magnitude_eq_iff : x.magnitude = y.magnitude ↔ x.units = y.units := by
  have hlt : x.magnitude < y.magnitude ↔ x.units < y.units := magnitude_lt_iff
  have hgt : y.magnitude < x.magnitude ↔ y.units < x.units := magnitude_lt_iff
  omega

theorem magnitude_eq_zero_iff : x.magnitude = 0 ↔ x.units = 0 := by
  have hzero : zero.magnitude = 0 := by decide
  have hunits : zero.units = 0 := by decide
  have h : x.magnitude = zero.magnitude ↔ x.units = zero.units := magnitude_eq_iff
  rwa [hzero, hunits] at h

/-- Doubles are ordered as the numbers they stand for; both zeros stand for 0. -/
theorem rank_lt_iff : x.rank < y.rank ↔ x.signedUnits < y.signedUnits := by
  have hlt : x.magnitude < y.magnitude ↔ x.units < y.units := magnitude_lt_iff
  have hgt : y.magnitude < x.magnitude ↔ y.units < x.units := magnitude_lt_iff
  have hx : x.magnitude = 0 ↔ x.units = 0 := magnitude_eq_zero_iff
  have hy : y.magnitude = 0 ↔ y.units = 0 := magnitude_eq_zero_iff
  unfold rank signedUnits
  split <;> split <;> omega

theorem rank_eq_iff : x.rank = y.rank ↔ x.signedUnits = y.signedUnits := by
  have hlt : x.rank < y.rank ↔ x.signedUnits < y.signedUnits := rank_lt_iff
  have hgt : y.rank < x.rank ↔ y.signedUnits < x.signedUnits := rank_lt_iff
  omega

end

/-! ## The nearest whole number of 53 digits -/

section

variable {num other den : Nat}

theorem roundDiv_mul (hden : 0 < den) (q : Nat) : roundDiv (q * den) den = q := by
  unfold roundDiv
  rw [Nat.mul_div_cancel _ hden, Nat.mul_mod_left]
  exact if_pos (by omega)

theorem roundDiv_mono (hden : 0 < den) (h : num ≤ other) : roundDiv num den ≤ roundDiv other den := by
  have hnum := Nat.div_add_mod num den
  have hother := Nat.div_add_mod other den
  have hrest := Nat.mod_lt num hden
  have hle : num / den ≤ other / den := Nat.div_le_div_right h
  rcases Nat.lt_or_eq_of_le hle with hlt | heq
  · have hup : roundDiv num den ≤ num / den + 1 := by
      unfold roundDiv
      dsimp only
      split_ifs <;> omega
    have hdown : other / den ≤ roundDiv other den := by
      unfold roundDiv
      dsimp only
      split_ifs <;> omega
    omega
  · have hmod : num % den ≤ other % den := by
      rw [heq] at hnum
      omega
    unfold roundDiv
    dsimp only
    rw [heq]
    split_ifs <;> omega

/-- What is left out or added in rounding is at most half the divisor. -/
theorem roundDiv_near (num : Nat) (hden : 0 < den) :
    2 * num ≤ 2 * (roundDiv num den * den) + den ∧ 2 * (roundDiv num den * den) ≤ 2 * num + den := by
  have hnum := Nat.div_add_mod' num den
  have hrest := Nat.mod_lt num hden
  unfold roundDiv
  dsimp only
  split_ifs
  all_goals first | omega | (rw [Nat.add_one_mul (num / den) den]; omega)

end

/-- The distance of the doubles next to a whole number, if it takes at least 53 binary digits. -/
def spacing (n : Nat) : Nat := 2 ^ (n.log2 - 52)

/-- The whole number that a double holds and that is nearest to this one, of two the even multiple
    of their distance. -/
def nearest (n : Nat) : Nat := roundDiv n (spacing n) * spacing n

section

variable {m n : Nat}

theorem spacing_pos : 0 < spacing n := by
  unfold spacing
  positivity

/-- A multiple of the distance is left alone. -/
theorem nearest_of_dvd (h : spacing n ∣ n) : nearest n = n := by
  obtain ⟨q, hq⟩ := h
  have hround : roundDiv (q * spacing n) (spacing n) = q := roundDiv_mul spacing_pos q
  rw [Nat.mul_comm, ← hq] at hround
  unfold nearest
  rw [hround, Nat.mul_comm]
  exact hq.symm

/-- Up to 2 ^ 53, every whole number is its own nearest. -/
theorem nearest_exact (h : n ≤ 2 ^ 53) : nearest n = n := by
  rcases Nat.lt_or_eq_of_le h with hlt | rfl
  · refine nearest_of_dvd ?_
    have hlog : n.log2 - 52 = 0 := by
      by_cases hn : n = 0
      · rw [hn, Nat.log2_zero]
      · have := (Nat.log2_lt hn).mpr hlt
        omega
    unfold spacing
    rw [hlog, Nat.pow_zero]
    exact Nat.one_dvd n
  · exact nearest_of_dvd (by decide)

/-- A number of more than 53 digits is rounded within the powers of two around it. -/
theorem nearest_bounds (h : 52 ≤ n.log2) : 2 ^ n.log2 ≤ nearest n ∧ nearest n ≤ 2 ^ (n.log2 + 1) := by
  have hn : n ≠ 0 := by
    rintro rfl
    rw [Nat.log2_zero] at h
    omega
  have hlow : 2 ^ n.log2 = 2 ^ 52 * spacing n := by
    unfold spacing
    rw [← Nat.pow_add]
    congr 1
    omega
  have hhigh : 2 ^ (n.log2 + 1) = 2 ^ 53 * spacing n := by
    rw [Nat.pow_succ, hlow]
    ring
  have hround : 2 ^ 52 ≤ roundDiv n (spacing n) ∧ roundDiv n (spacing n) ≤ 2 ^ 53 := by
    refine ⟨?_, ?_⟩
    · rw [← roundDiv_mul spacing_pos (2 ^ 52), ← hlow]
      exact roundDiv_mono spacing_pos (Nat.log2_self_le hn)
    · rw [← roundDiv_mul spacing_pos (2 ^ 53), ← hhigh]
      exact roundDiv_mono spacing_pos (Nat.le_of_lt Nat.lt_log2_self)
  rw [hlow, hhigh]
  unfold nearest
  exact ⟨Nat.mul_le_mul_right _ hround.1, Nat.mul_le_mul_right _ hround.2⟩

/-- Rounding keeps the order. -/
theorem nearest_mono (h : m ≤ n) : nearest m ≤ nearest n := by
  by_cases hsmall : m ≤ 2 ^ 53
  · rw [nearest_exact hsmall]
    by_cases hn : n ≤ 2 ^ 53
    · rwa [nearest_exact hn]
    · have hlog : 53 ≤ n.log2 := (Nat.le_log2 (by omega)).mpr (by omega)
      calc m ≤ 2 ^ 53 := hsmall
        _ ≤ 2 ^ n.log2 := Nat.pow_le_pow_right (by decide) hlog
        _ ≤ nearest n := (nearest_bounds (by omega)).1
  · have hm : 53 ≤ m.log2 := (Nat.le_log2 (by omega)).mpr (by omega)
    have hlog : m.log2 ≤ n.log2 := (Nat.le_log2 (by omega)).mpr (Nat.le_trans (Nat.log2_self_le (by omega)) h)
    rcases Nat.lt_or_eq_of_le hlog with hlt | heq
    · calc nearest m ≤ 2 ^ (m.log2 + 1) := (nearest_bounds (by omega)).2
        _ ≤ 2 ^ n.log2 := Nat.pow_le_pow_right (by decide) hlt
        _ ≤ nearest n := (nearest_bounds (by omega)).1
    · have hspacing : spacing m = spacing n := by
        unfold spacing
        rw [heq]
      unfold nearest
      rw [hspacing]
      exact Nat.mul_le_mul_right _ (roundDiv_mono spacing_pos h)

/-- No multiple of the distance is closer. -/
theorem nearest_closest_multiple (n q : Nat) :
    ((n : Int) - nearest n).natAbs ≤ ((n : Int) - (q * spacing n : Nat)).natAbs := by
  obtain ⟨hover, hunder⟩ := roundDiv_near n (spacing_pos (n := n))
  unfold nearest
  rcases Nat.lt_trichotomy q (roundDiv n (spacing n)) with hlt | rfl | hgt
  · have hstep := Nat.mul_le_mul_right (spacing n) hlt
    rw [Nat.succ_mul] at hstep
    omega
  · exact Nat.le_refl _
  · have hstep := Nat.mul_le_mul_right (spacing n) hgt
    rw [Nat.succ_mul] at hstep
    omega

/-- No whole number that 53 binary digits and zeros write is closer. -/
theorem nearest_closest (n : Nat) {m : Nat} (hm : m < 2 ^ 53) (e : Nat) :
    ((n : Int) - nearest n).natAbs ≤ ((n : Int) - (m * 2 ^ e : Nat)).natAbs := by
  by_cases hsmall : n ≤ 2 ^ 53
  · rw [nearest_exact hsmall]
    omega
  have hlog : 53 ≤ n.log2 := (Nat.le_log2 (by omega)).mpr (by omega)
  by_cases he : n.log2 - 52 ≤ e
  · have hmultiple : m * 2 ^ e = (m * 2 ^ (e - (n.log2 - 52))) * spacing n := by
      unfold spacing
      rw [Nat.mul_assoc, ← Nat.pow_add]
      congr 2
      omega
    rw [hmultiple]
    exact nearest_closest_multiple n _
  · -- The number written lies below the power of two under `n`, which is a multiple of the distance.
    have hbelow : m * 2 ^ e ≤ 2 ^ n.log2 := by
      calc m * 2 ^ e ≤ 2 ^ 53 * 2 ^ e := Nat.mul_le_mul_right _ (Nat.le_of_lt hm)
        _ = 2 ^ (53 + e) := (Nat.pow_add ..).symm
        _ ≤ 2 ^ n.log2 := Nat.pow_le_pow_right (by decide) (by omega)
    have hpower : 2 ^ n.log2 = 2 ^ 52 * spacing n := by
      unfold spacing
      rw [← Nat.pow_add]
      congr 1
      omega
    have hn := Nat.log2_self_le (n := n) (by omega)
    have hclose := nearest_closest_multiple n (2 ^ 52)
    rw [← hpower] at hclose
    omega

end

/-! ## Doubles of whole numbers -/

def rounded (n : Int) : Int := if n < 0 then -(nearest n.natAbs : Int) else nearest n.natAbs

theorem rounded_exact {n : Int} (h : n.natAbs ≤ 2 ^ 53) : rounded n = n := by
  unfold rounded
  rw [nearest_exact h]
  split <;> omega

theorem rounded_mono {m n : Int} (h : m ≤ n) : rounded m ≤ rounded n := by
  unfold rounded
  split_ifs with hm hn
  · have := nearest_mono (show n.natAbs ≤ m.natAbs by omega)
    omega
  · omega
  · omega
  · have := nearest_mono (show m.natAbs ≤ n.natAbs by omega)
    omega

theorem magnitude_pack (negative : Bool) {m : Nat} (hm : m < 2 ^ 63) : (pack negative m).magnitude = m := by
  unfold magnitude pack
  cases negative
  all_goals simp only [Bool.false_eq_true, if_false, if_true, Nat.toUInt64_eq, UInt64.toNat_ofNat']
  all_goals omega

theorem isNegative_pack (negative : Bool) {m : Nat} (hm : m < 2 ^ 63) : (pack negative m).isNegative = negative := by
  unfold isNegative pack
  cases negative
  all_goals simp only [Bool.false_eq_true, if_false, if_true, Nat.toUInt64_eq, UInt64.toNat_ofNat']
  · exact decide_eq_false (by omega)
  · exact decide_eq_true (by omega)

/-- A mantissa of 53 bits on top of `k` units of the exponent stands for itself times `2 ^ k`, also when
    it is one too long and carries. -/
theorem units_of_carry {x : Double} {k r : Nat} (hr : 2 ^ 52 ≤ r) (hr' : r ≤ 2 ^ 53)
    (h : x.magnitude = k * 2 ^ 52 + r) : x.units = r * 2 ^ k := by
  rcases Nat.lt_or_eq_of_le hr' with hlt | rfl
  · have hfield : x.exponentField = k + 1 := by
      unfold exponentField
      omega
    have hfraction : x.fraction = r - 2 ^ 52 := by
      unfold fraction
      omega
    unfold units mantissa unitShift
    rw [hfield, hfraction, if_neg (by omega), show 2 ^ 52 + (r - 2 ^ 52) = r by omega,
      show max (k + 1) 1 - 1 = k by omega]
  · have hfield : x.exponentField = k + 2 := by
      unfold exponentField
      omega
    have hfraction : x.fraction = 0 := by
      unfold fraction
      omega
    unfold units mantissa unitShift
    rw [hfield, hfraction, if_neg (by omega), show max (k + 2) 1 - 1 = k + 1 by omega]
    ring

/-- The power of two at which a whole number has a mantissa of 53 bits. -/
theorem unitExponent_one {n : Nat} (hn : n ≠ 0) : unitExponent n 1 = (n.log2 : Int) - 52 := by
  have hmax : max ((n.log2 : Int) - (Nat.log2 1 : Nat) - 53) (-1074) = (n.log2 : Int) - 53 := by
    rw [show Nat.log2 1 = 0 by decide]
    omega
  have hlow := Nat.log2_self_le hn
  have hfull : 2 ^ 53 ≤ (scaled n 1 ((n.log2 : Int) - 53)).1 / (scaled n 1 ((n.log2 : Int) - 53)).2 := by
    unfold scaled
    by_cases hq : (0 : Int) ≤ (n.log2 : Int) - 53
    · rw [if_pos hq, show ((n.log2 : Int) - 53).toNat = n.log2 - 53 by omega, Nat.one_mul,
        Nat.le_div_iff_mul_le (by positivity), ← Nat.pow_add, show 53 + (n.log2 - 53) = n.log2 by omega]
      exact hlow
    · rw [if_neg hq, show (-((n.log2 : Int) - 53)).toNat = 53 - n.log2 by omega, Nat.div_one]
      calc 2 ^ 53 = 2 ^ n.log2 * 2 ^ (53 - n.log2) := by
            rw [← Nat.pow_add, show n.log2 + (53 - n.log2) = 53 by omega]
        _ ≤ n * 2 ^ (53 - n.log2) := Nat.mul_le_mul_right _ hlow
  unfold unitExponent
  rw [hmax]
  dsimp only
  rw [if_neg (by omega)]
  omega

/-- The mantissa of a whole number is 53 bits long, or one more for the carry, and stands for the nearest
    number that a double holds. -/
theorem roundDiv_scaled {n : Nat} (hn : n ≠ 0) :
    ∃ r, roundDiv (scaled n 1 ((n.log2 : Int) - 52)).1 (scaled n 1 ((n.log2 : Int) - 52)).2 = r ∧
      2 ^ 52 ≤ r ∧ r ≤ 2 ^ 53 ∧ r * 2 ^ n.log2 = nearest n * 2 ^ 52 := by
  have hlow := Nat.log2_self_le hn
  have hhigh := Nat.lt_log2_self (n := n)
  unfold scaled
  by_cases hq : (0 : Int) ≤ (n.log2 : Int) - 52
  · have hpower : 2 ^ n.log2 = spacing n * 2 ^ 52 := by
      unfold spacing
      rw [← Nat.pow_add, show n.log2 - 52 + 52 = n.log2 by omega]
    obtain ⟨hge, hle⟩ := nearest_bounds (n := n) (by omega)
    rw [if_pos hq, show ((n.log2 : Int) - 52).toNat = n.log2 - 52 by omega, Nat.one_mul]
    refine ⟨_, rfl, ?_, ?_, ?_⟩
    · refine Nat.le_of_mul_le_mul_right ?_ (spacing_pos (n := n))
      rwa [hpower, Nat.mul_comm] at hge
    · refine Nat.le_of_mul_le_mul_right ?_ (spacing_pos (n := n))
      calc nearest n ≤ 2 ^ (n.log2 + 1) := hle
        _ = 2 ^ 53 * spacing n := by rw [Nat.pow_succ, hpower]; ring
    · rw [hpower]
      unfold nearest spacing
      ring
  · have hpower : 2 ^ n.log2 * 2 ^ (52 - n.log2) = 2 ^ 52 := by
      rw [← Nat.pow_add, show n.log2 + (52 - n.log2) = 52 by omega]
    have hsmall : n ≤ 2 ^ 53 := by
      calc n ≤ 2 ^ (n.log2 + 1) := Nat.le_of_lt hhigh
        _ ≤ 2 ^ 53 := Nat.pow_le_pow_right (by decide) (by omega)
    rw [if_neg hq, show (-((n.log2 : Int) - 52)).toNat = 52 - n.log2 by omega]
    refine ⟨n * 2 ^ (52 - n.log2), ?_, ?_, ?_, ?_⟩
    · simpa using roundDiv_mul Nat.one_pos (n * 2 ^ (52 - n.log2))
    · rw [← hpower]
      exact Nat.mul_le_mul_right _ hlow
    · calc n * 2 ^ (52 - n.log2) ≤ 2 ^ (n.log2 + 1) * 2 ^ (52 - n.log2) :=
            Nat.mul_le_mul_right _ (Nat.le_of_lt hhigh)
        _ = 2 ^ 53 := by rw [Nat.pow_succ, Nat.mul_right_comm, hpower]
    · rw [nearest_exact hsmall, ← hpower]
      ring

/-- The double of a whole number is no NaN and stands for the nearest number that a double holds. -/
theorem ofInt_value {n : Int} (h : n.natAbs.log2 < 1000) :
    (ofInt n).isNaN = false ∧ (ofInt n).signedUnits = rounded n * 2 ^ depth := by
  by_cases hzero : n = 0
  · subst hzero
    refine ⟨by decide, ?_⟩
    rw [rounded_exact (by decide), Int.zero_mul]
    decide
  have hn : n.natAbs ≠ 0 := by omega
  obtain ⟨r, hr, hge, hle, hvalue⟩ := roundDiv_scaled hn
  have hmagnitude : ofInt n = pack (decide (n < 0)) ((n.natAbs.log2 + 1022) * 2 ^ 52 + r) := by
    unfold ofInt ofRatio
    rw [if_neg hn, unitExponent_one hn]
    dsimp only
    rw [hr, show ((n.natAbs.log2 : Int) - 52 + 1074).toNat = n.natAbs.log2 + 1022 by omega]
    refine if_pos ?_
    unfold infiniteMagnitude
    omega
  have hlt : (n.natAbs.log2 + 1022) * 2 ^ 52 + r < 2 ^ 63 := by omega
  have hpacked := magnitude_pack (decide (n < 0)) hlt
  have hunits : (ofInt n).units = nearest n.natAbs * 2 ^ depth := by
    -- The exponent is given a name, so that nothing computes the power.
    obtain ⟨d, hd⟩ : ∃ d, d = 1022 := ⟨_, rfl⟩
    have hdepth : depth = 52 + d := by rw [depth_eq, hd]
    rw [hmagnitude, units_of_carry hge hle hpacked, ← hd, hdepth, Nat.pow_add, Nat.pow_add, ← Nat.mul_assoc, hvalue,
      Nat.mul_assoc]
  refine ⟨?_, ?_⟩
  · have hfield : (ofInt n).exponentField ≠ 2047 := by
      rw [hmagnitude]
      unfold exponentField
      rw [hpacked]
      omega
    unfold isNaN
    rw [beq_false_of_ne hfield, Bool.false_and]
  · unfold signedUnits rounded
    rw [hunits, hmagnitude, isNegative_pack _ hlt]
    by_cases hneg : n < 0
    · rw [decide_eq_true hneg, if_pos rfl, if_pos hneg]
      push_cast
      ring
    · rw [decide_eq_false hneg, if_neg (by decide), if_neg hneg]
      push_cast
      ring

section

variable {m n : Int} (hm : m.natAbs.log2 < 1000) (hn : n.natAbs.log2 < 1000)
include hm hn

/-- The doubles of whole numbers are in order if the rounded numbers are. -/
theorem ofInt_lt : (ofInt m).lt (ofInt n) = decide (rounded m < rounded n) := by
  obtain ⟨hmnan, hmvalue⟩ := ofInt_value hm
  obtain ⟨hnnan, hnvalue⟩ := ofInt_value hn
  unfold lt
  rw [hmnan, hnnan, Bool.not_false, Bool.true_and, Bool.true_and]
  refine decide_eq_decide.mpr (rank_lt_iff.trans ?_)
  rw [hmvalue, hnvalue]
  exact Int.mul_lt_mul_right (by positivity)

/-- The doubles of whole numbers are equal if the rounded numbers are. -/
theorem ofInt_eq : (ofInt m).eq (ofInt n) = decide (rounded m = rounded n) := by
  obtain ⟨hmnan, hmvalue⟩ := ofInt_value hm
  obtain ⟨hnnan, hnvalue⟩ := ofInt_value hn
  unfold eq
  rw [hmnan, hnnan, Bool.not_false, Bool.true_and, Bool.true_and]
  refine decide_eq_decide.mpr (rank_eq_iff.trans ?_)
  rw [hmvalue, hnvalue]
  exact Int.mul_eq_mul_right_iff (by positivity)

end

end BlockEngine.Double
