/-
  BlockEngine.Proofs.Double.Truncation — whole numbers read back from doubles.

  A double that stands for a whole number is truncated to that number. So what comes back of a whole
  number that became a double is the nearest one that a double holds; it does not matter by which
  fraction the number was given, if its terms differ by a power of two only.

  Proved:
  - `ofRatio_shift`: a power of two in both terms of a fraction makes no difference.
  - `ofRatio_infinite`: whole numbers from 2 ^ 1024 on become infinities.
  - `truncate?_ofRatio`: other whole numbers come back rounded.
-/

import BlockEngine.Proofs.Double.Whole

namespace BlockEngine.Double

/-! ## Truncation -/

/-- A double that stands for a whole number is truncated to it. -/
theorem truncate?_of_signedUnits {x : Double} {z : Int} (hfin : x.isFinite = true)
    (h : x.signedUnits = z * 2 ^ depth) : x.truncate? = some z := by
  have hdepth := depth_eq
  have hunits : x.mantissa * 2 ^ x.unitShift = z.natAbs * 2 ^ depth := by
    have habs := congrArg Int.natAbs h
    rw [Int.natAbs_mul, Int.natAbs_pow] at habs
    refine Eq.trans ?_ habs
    unfold signedUnits units
    split
    · rw [Int.natAbs_neg, Int.natAbs_natCast]
    · rw [Int.natAbs_natCast]
  have hwhole : (if 0 ≤ x.exponent then x.mantissa * 2 ^ x.exponent.toNat
      else x.mantissa / 2 ^ (-x.exponent).toNat) = z.natAbs := by
    rw [exponent_eq]
    by_cases hq : (0 : Int) ≤ (x.unitShift : Int) - 1074
    · obtain ⟨q, hq'⟩ : ∃ q, x.unitShift = q + depth := ⟨x.unitShift - depth, by omega⟩
      rw [if_pos hq, show ((x.unitShift : Int) - 1074).toNat = q by omega]
      refine Nat.eq_of_mul_eq_mul_right (show 0 < 2 ^ depth by positivity) ?_
      rw [← hunits, hq', Nat.pow_add, Nat.mul_assoc]
    · obtain ⟨q, hq'⟩ : ∃ q, q + x.unitShift = depth := ⟨depth - x.unitShift, by omega⟩
      have hmantissa : x.mantissa = z.natAbs * 2 ^ q := by
        refine Nat.eq_of_mul_eq_mul_right (show 0 < 2 ^ x.unitShift by positivity) ?_
        rw [hunits, ← hq', Nat.pow_add, Nat.mul_assoc]
      rw [if_neg hq, show (-((x.unitShift : Int) - 1074)).toNat = q by omega, hmantissa,
        Nat.mul_div_cancel _ (by positivity)]
  have hpower : (0 : Int) < 2 ^ depth := by positivity
  unfold truncate?
  dsimp only
  rw [if_pos hfin, hwhole]
  unfold signedUnits at h
  congr 1
  split at h
  · have hz : z ≤ 0 := by
      refine nonpos_of_mul_nonpos_left ?_ hpower
      omega
    rw [if_pos ‹_›]
    omega
  · have hz : 0 ≤ z := by
      refine nonneg_of_mul_nonneg_left ?_ hpower
      omega
    rw [if_neg ‹_›]
    omega

/-! ## Fractions with a power of two in both terms -/

section

variable {num den : Nat}

theorem log2_mul_pow (h : num ≠ 0) (k : Nat) : (num * 2 ^ k).log2 = num.log2 + k := by
  refine (Nat.log2_eq_iff (by positivity)).mpr ⟨?_, ?_⟩
  · rw [Nat.pow_add]
    exact Nat.mul_le_mul_right _ (Nat.log2_self_le h)
  · rw [Nat.add_right_comm, Nat.pow_add]
    exact (Nat.mul_lt_mul_right (by positivity)).mpr Nat.lt_log2_self

theorem roundDiv_mul_mul {c : Nat} (hc : 0 < c) : roundDiv (num * c) (den * c) = roundDiv num den := by
  have hless : 2 * (num % den * c) < den * c ↔ 2 * (num % den) < den := by
    rw [← Nat.mul_assoc, Nat.mul_lt_mul_right hc]
  have hmore : den * c < 2 * (num % den * c) ↔ den < 2 * (num % den) := by
    rw [← Nat.mul_assoc, Nat.mul_lt_mul_right hc]
  unfold roundDiv
  dsimp only
  rw [Nat.mul_div_mul_right _ _ hc, Nat.mul_mod_mul_right]
  simp only [hless, hmore]

theorem scaled_shift (k : Nat) (q : Int) : scaled (num * 2 ^ k) (den * 2 ^ k) q =
    ((scaled num den q).1 * 2 ^ k, (scaled num den q).2 * 2 ^ k) := by
  unfold scaled
  split
  · rw [Nat.mul_right_comm]
  · rw [Nat.mul_right_comm]

theorem unitExponent_shift (hnum : num ≠ 0) (hden : den ≠ 0) (k : Nat) :
    unitExponent (num * 2 ^ k) (den * 2 ^ k) = unitExponent num den := by
  have hlog : ((num.log2 + k : Nat) : Int) - (den.log2 + k : Nat) - 53 = (num.log2 : Int) - den.log2 - 53 := by
    omega
  unfold unitExponent
  rw [log2_mul_pow hnum, log2_mul_pow hden, hlog]
  dsimp only
  rw [scaled_shift]
  dsimp only
  rw [Nat.mul_div_mul_right _ _ (by positivity)]

/-- A power of two in both terms makes no difference. -/
theorem ofRatio_shift (negative : Bool) (hden : den ≠ 0) (k : Nat) :
    ofRatio negative (num * 2 ^ k) (den * 2 ^ k) = ofRatio negative num den := by
  by_cases hnum : num = 0
  · unfold ofRatio
    rw [if_pos hnum, if_pos (by rw [hnum, Nat.zero_mul])]
  · unfold ofRatio
    rw [if_neg hnum, if_neg (by positivity), unitExponent_shift hnum hden]
    dsimp only
    rw [scaled_shift]
    dsimp only
    rw [roundDiv_mul_mul (by positivity)]

end

/-! ## Doubles of whole numbers -/

section

variable {n : Nat} (negative : Bool)

/-- A whole number from 2 ^ 1024 on becomes an infinity. -/
theorem ofRatio_infinite (h : 1024 ≤ n.log2) : ofRatio negative n 1 = infinity negative := by
  have hn : n ≠ 0 := by
    rintro rfl
    rw [Nat.log2_zero] at h
    omega
  obtain ⟨r, hr, hge, -, -⟩ := roundDiv_scaled hn
  unfold ofRatio
  rw [if_neg hn, unitExponent_one hn]
  dsimp only
  rw [hr, show ((n.log2 : Int) - 52 + 1074).toNat = n.log2 + 1022 by omega]
  refine if_neg ?_
  unfold infiniteMagnitude
  omega

theorem isInfinite_infinity : (infinity negative).isInfinite = true := by
  cases negative <;> decide

/-- A whole number comes back from its double as the nearest one that a double holds. -/
theorem truncate?_ofRatio (h : n.log2 < 1000) (hfin : (ofRatio negative n 1).isInfinite = false) :
    (ofRatio negative n 1).truncate? = some (rounded (if negative then -(n : Int) else n)) := by
  by_cases hn : n = 0
  · subst hn
    cases negative
    all_goals exact truncate?_of_signedUnits (by decide) (Int.zero_mul _).symm
  have hofInt : ofRatio negative n 1 = ofInt (if negative then -(n : Int) else n) := by
    unfold ofInt
    cases negative
    · rw [if_neg (by decide), Int.natAbs_natCast, decide_eq_false (by omega)]
    · rw [if_pos rfl, Int.natAbs_neg, Int.natAbs_natCast, decide_eq_true (by omega)]
  have habs : (if negative then -(n : Int) else n).natAbs = n := by
    split <;> omega
  obtain ⟨hnan, hvalue⟩ := ofInt_value (n := if negative then -(n : Int) else n) (by rwa [habs])
  rw [hofInt] at hfin ⊢
  refine truncate?_of_signedUnits ?_ hvalue
  simp only [isNaN, isInfinite, isFinite, bne_iff_ne, Bool.and_eq_false_iff, beq_eq_false_iff_ne,
    bne_eq_false_iff_eq] at hnan hfin ⊢
  tauto

end

end BlockEngine.Double
