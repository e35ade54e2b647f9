/-
  BlockEngine.Proofs.Library.Addition — what the addition block makes of whole numbers.

  Integers, truth values and texts that spell a number without point and decimal exponent are added as
  integers of 64 bits, modulo 2 ^ 64 (`isIntegral`). A text of decimal digits is read as it is; any other
  is read through a double, rounded, and loses its fraction. So a text is added as the number it spells
  (`Value.number?`) if it is plain, or spells a whole number up to 2 ^ 53. Of the other texts that count as
  whole numbers,
  - hexadecimal ones may spell a fraction, which is dropped: two halves add up to 0;
  - those with underscores, and hexadecimal ones, are rounded to 53 binary digits from 2 ^ 53 on.

  Proved:
  - `number?_eq_none`: what counts as a whole number has a number, or is the text of an infinity or a NaN.
  - `Operand.whole`: only a hexadecimal text spells a fraction.
  - `Operand.toInt64?`: what a whole number is read as.
  - `whole_operands_add_up`: operands that are read exactly are added exactly.
  - `fractions_add_up_to_zero`: the two exceptions.
-/

import BlockEngine.Library.Data
import BlockEngine.Proofs.Double.Spelling

namespace BlockEngine

open Double (rounded)

/-! ## Trimmed texts -/

namespace Text

theorem after?_suffix {start t rest : Text} (h : after? start t = some rest) : rest <:+ t := by
  fun_induction after? start t with
  | case1 t =>
    cases h
    exact List.suffix_refl _
  | case2 => cases h
  | case3 _ _ _ ih => exact (ih h).trans (List.suffix_cons ..)
  | case4 => cases h

theorem dropForms_suffix (forms : List Text) (n : Nat) (t : Text) : dropForms forms n t <:+ t := by
  induction n generalizing t with
  | zero => exact List.suffix_refl _
  | succ n ih =>
    unfold dropForms
    split
    next rest hrest =>
      obtain ⟨form, -, hform⟩ := List.exists_of_findSome?_eq_some hrest
      exact (ih rest).trans (after?_suffix hform)
    next => exact List.suffix_refl _

/-- Without the white space at its ends, a text has no bytes but its own. -/
theorem trim_subset (t : Text) : t.trim ⊆ t := by
  intro b hb
  have hleft := (dropForms_suffix (blanks.map List.reverse) t.trimLeft.length t.trimLeft.reverse).subset
  have hb' : b ∈ t.trimLeft := List.mem_reverse.mp (hleft (List.mem_reverse.mp hb))
  exact (dropForms_suffix blanks t.length t).subset hb'

end Text

/-! ## The numbers of operands -/

namespace Value

/-- The number of an integer or a truth value, or the one that a text spells, taken exactly. -/
def number? : Value → Option ℚ
  | .scalar _ (.int n) => some n.toInt
  | .scalar _ (.bool b) => some (if b then 1 else 0)
  | .scalar _ (.str t) => Numeral.spells? t.trim
  | _ => none

def isPlain : Value → Bool
  | .scalar _ (.str t) => (Numeral.integer? t.trim).isSome
  | _ => true

def isHexadecimal : Value → Bool
  | .scalar _ (.str t) => Numeral.isHexadecimal t.trim
  | _ => false

end Value

/-- The value counts as a whole number, and has a number within the range of integers. -/
structure Operand (v : Value) (q : ℚ) : Prop where
  integral : Library.isIntegral v = true
  number : v.number? = some q
  low : -2 ^ 63 ≤ q
  high : q < 2 ^ 63

/-- The value counts as a whole number by its text: that is an infinity or a NaN, or has one of two forms. -/
theorem spelled_of_integral {o : Ownership} {t : Text} (h : Library.isIntegral (.scalar o (.str t)) = true) :
    ∃ n x, n.toDouble? = some x ∧ t.double? = some x ∧
      ((Numeral.word? t.trim = some n ∧ Numeral.spells? t.trim = none) ∨
        ∃ q, Numeral.spells? t.trim = some q ∧ Numeral.Spelled t.trim n q) := by
  simp only [Library.isIntegral, Bool.and_eq_true, Bool.not_eq_true', List.any_eq_false, Bool.or_eq_true, beq_iff_eq,
    not_or] at h
  obtain ⟨hdouble, hmarks⟩ := h
  obtain ⟨x, hx⟩ := Option.isSome_iff_exists.mp hdouble
  obtain ⟨n, hn, hdouble⟩ := Option.bind_eq_some_iff.mp hx
  have hunmarked : Numeral.Unmarked t.trim :=
    { point := fun hb => (hmarks _ (t.trim_subset hb)).1.1 rfl
      lower := fun hb => (hmarks _ (t.trim_subset hb)).1.2 rfl
      upper := fun hb => (hmarks _ (t.trim_subset hb)).2 rfl }
  exact ⟨n, x, hdouble, hx, Numeral.spelled_of_unmarked hunmarked hn⟩

/-- What counts as a whole number has a number, unless it is an infinity or a NaN. -/
theorem number?_eq_none {v : Value} (h : Library.isIntegral v = true) (hnone : v.number? = none) :
    ∃ o t, v = .scalar o (.str t) ∧ (Numeral.word? t.trim).isSome = true := by
  match v with
  | .scalar _ (.int _) | .scalar _ (.bool _) => cases hnone
  | .scalar o (.str t) =>
    obtain ⟨n, x, -, -, ⟨hword, -⟩ | ⟨q, hq, -⟩⟩ := spelled_of_integral h
    · exact ⟨o, t, rfl, by rw [hword]; rfl⟩
    · exact absurd (hq.symm.trans hnone) (by simp)
  | .scalar _ .nothing | .scalar _ (.double _) | .scalar _ (.control _) | .scalar _ (.chain _) | .scalar _ .omitted
  | .list .. => cases h

namespace Operand

/-- A text that is an operand has one of the two forms, and a double. -/
theorem spelled {o : Ownership} {t : Text} {q : ℚ} (h : Operand (.scalar o (.str t)) q) :
    ∃ n x, n.toDouble? = some x ∧ t.double? = some x ∧ Numeral.Spelled t.trim n q := by
  obtain ⟨n, x, hx, hdouble, ⟨-, hnone⟩ | ⟨r, hr, hspelled⟩⟩ := spelled_of_integral h.integral
  · exact absurd (h.number.symm.trans hnone) (by simp)
  · obtain rfl : q = r := Option.some.inj (h.number.symm.trans hr)
    exact ⟨n, x, hx, hdouble, hspelled⟩

/-- A fraction is spelled by a hexadecimal text only. -/
theorem whole {v : Value} {q : ℚ} (h : Operand v q) (hhex : v.isHexadecimal = false) : ∃ z : ℤ, q = z := by
  have hnumber := h.number
  match v with
  | .scalar _ (.int n) =>
    cases hnumber
    exact ⟨_, rfl⟩
  | .scalar _ (.bool b) =>
    cases hnumber
    cases b
    · exact ⟨0, by simp⟩
    · exact ⟨1, by simp⟩
  | .scalar _ (.str t) =>
    obtain ⟨n, x, -, -, hspelled⟩ := h.spelled
    cases hspelled with
    | decimal negative digits _ =>
      refine ⟨if negative then -digits else digits, ?_⟩
      unfold Numeral.signed
      split <;> push_cast <;> rfl
    | binary _ _ htrue _ => exact absurd (htrue.symm.trans hhex) (by decide)
  | .scalar _ .nothing | .scalar _ (.double _) | .scalar _ (.control _) | .scalar _ (.chain _) | .scalar _ .omitted
  | .list .. => cases hnumber

section

variable {v : Value} {z : Int} (h : Operand v z)
include h

theorem bounds : -2 ^ 63 ≤ z ∧ z < 2 ^ 63 := by
  have hlow := h.low
  have hhigh := h.high
  exact ⟨by exact_mod_cast hlow, by exact_mod_cast hhigh⟩

theorem log2_lt : z.natAbs.log2 < 1000 := by
  obtain ⟨hlow, hhigh⟩ := h.bounds
  by_cases hz : z.natAbs = 0
  · rw [hz, Nat.log2_zero]
    decide
  · have hlog : z.natAbs.log2 < 64 := (Nat.log2_lt hz).mpr (by omega)
    omega

/-- A whole number is read exactly in a plain text; else it is rounded, and may not fit then. -/
theorem toInt64? : v.toInt64? =
    if v.isPlain then some (Int64.ofInt z)
    else if -2 ^ 63 ≤ rounded z ∧ rounded z < 2 ^ 63 then some (Int64.ofInt (rounded z)) else none := by
  have hnumber := h.number
  match v with
  | .scalar _ (.int n) =>
    obtain rfl : n.toInt = z := Int.cast_injective (Option.some.inj hnumber)
    rw [Int64.ofInt_toInt]
    rfl
  | .scalar _ (.bool b) =>
    have hz : (if b then 1 else 0 : ℚ) = z := Option.some.inj hnumber
    cases b
    · obtain rfl : 0 = z := by exact_mod_cast hz
      rfl
    · obtain rfl : 1 = z := by exact_mod_cast hz
      rfl
  | .scalar _ (.str t) =>
    obtain ⟨n, x, hx, hdouble, hspelled⟩ := h.spelled
    cases hplain : Numeral.integer? t.trim with
    | some m =>
      obtain rfl : z = m := by exact_mod_cast Numeral.integer?_exact hplain hnumber
      have hint : Numeral.int64? t.trim = some (Int64.ofInt z) := by
        unfold Numeral.int64?
        rw [hplain]
        exact if_pos h.bounds
      simp [Value.toInt64?, Scalar.toInt64?, Text.toInt64?, Value.isPlain, hplain, hint]
    | none =>
      have htruncate := hspelled.truncate? hx rfl h.log2_lt
      simp [Value.toInt64?, Scalar.toInt64?, Text.toInt64?, Numeral.int64?, Value.isPlain, hplain, hdouble,
        Double.toInt64?, htruncate]
  | .scalar _ .nothing | .scalar _ (.double _) | .scalar _ (.control _) | .scalar _ (.chain _) | .scalar _ .omitted
  | .list .. => cases hnumber

/-- A plain text, and one that spells a number up to 2 ^ 53, is read exactly. -/
theorem toInt64 (hread : v.isPlain = true ∨ z.natAbs ≤ 2 ^ 53) : v.toInt64.toInt = z := by
  have hread? : v.toInt64? = some (Int64.ofInt z) := by
    rw [h.toInt64?]
    rcases hread with hplain | hsmall
    · rw [if_pos hplain]
    · rw [Double.rounded_exact hsmall, if_pos h.bounds, ite_self]
  rw [Value.toInt64, hread?]
  exact Int64.toInt_ofInt_of_le h.bounds.1 h.bounds.2

end

end Operand

/-- Operands that are read exactly are added exactly, modulo 2 ^ 64. -/
theorem whole_operands_add_up {v w : Value} {q r : ℚ} (hv : Operand v q) (hw : Operand w r) :
    (v.isHexadecimal = false → ∃ z : ℤ, q = z) ∧
      (∀ z : ℤ, q = z → v.toInt64? =
        if v.isPlain then some (Int64.ofInt z)
        else if -2 ^ 63 ≤ rounded z ∧ rounded z < 2 ^ 63 then some (Int64.ofInt (rounded z)) else none) ∧
      ∀ y z : ℤ, q = y → r = z → v.isPlain = true ∨ y.natAbs ≤ 2 ^ 53 → w.isPlain = true ∨ z.natAbs ≤ 2 ^ 53 →
        v.toInt64.toInt = y ∧ Library.addBlock [v, w] = .done (.ofInt (Int64.ofInt (y + z))) := by
  refine ⟨hv.whole, ?_, ?_⟩
  · rintro z rfl
    exact hv.toInt64?
  · rintro y z rfl rfl hvread hwread
    have hy := hv.toInt64 hvread
    have hz := hw.toInt64 hwread
    have hsum : v.toInt64 + w.toInt64 = Int64.ofInt (y + z) := by
      rw [← hy, ← hz, Int64.ofInt_add, Int64.ofInt_toInt, Int64.ofInt_toInt]
    have hboth : (Library.isIntegral v && Library.isIntegral w) = true := by rw [hv.integral, hw.integral]; rfl
    refine ⟨hy, ?_⟩
    change Proc.done (Library.sum v w) = _
    unfold Library.sum
    rw [if_pos hboth, hsum]

/-- Texts with underscores and with a binary exponent that are read exactly. -/
theorem whole_operands_add_up_scored : Operand (.ofText " 1_000 ") 1000 ∧ Operand (.ofText "0x10p-2") 4 ∧
    (Value.ofText " 1_000 ").toInt64.toInt = 1000 ∧
    Library.addBlock [.ofText " 1_000 ", .ofText "0x10p-2"] = .done (.ofInt 1004) := by
  have hv : Operand (.ofText " 1_000 ") 1000 := ⟨by decide, by decide +kernel, by norm_num, by norm_num⟩
  have hw : Operand (.ofText "0x10p-2") 4 := ⟨by decide, by decide +kernel, by norm_num, by norm_num⟩
  exact ⟨hv, hw, (whole_operands_add_up hv hw).2.2 1000 4 (by norm_num) (by norm_num) (.inr (by decide))
    (.inr (by decide))⟩

/-- A hexadecimal half counts as a whole number and is read as 0, and a number of more than 53 binary digits
    with underscores is read as its even neighbour. -/
theorem fractions_add_up_to_zero :
    (Operand (.ofText "0x1p-1") (1 / 2) ∧ (Value.ofText "0x1p-1").toInt64 = 0 ∧
      Library.addBlock [.ofText "0x1p-1", .ofText "0x1p-1"] = .done (.ofInt 0)) ∧
      Operand (.ofText "9_007_199_254_740_993") 9007199254740993 ∧
        (Value.ofText "9_007_199_254_740_993").toInt64 = 9007199254740992 ∧
        Library.addBlock [.ofText "9_007_199_254_740_993", .ofInt 0] = .done (.ofInt 9007199254740992) :=
  ⟨⟨⟨by decide, by decide +kernel, by norm_num, by norm_num⟩, by decide, rfl⟩,
    ⟨by decide, by decide +kernel, by norm_num, by norm_num⟩, by decide, rfl⟩

end BlockEngine
