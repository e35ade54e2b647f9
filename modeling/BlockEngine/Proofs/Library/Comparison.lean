/-
  BlockEngine.Proofs.Library.Comparison — what the comparison blocks say.

  Numbers are compared as doubles, all else by display form, and two lists are equal element by element
  but ordered by display form. An integer of 64 bits becomes the nearest one of 53 digits, so integers
  that lie close together compare equal from 2 ^ 53 on.

  Proved:
  - `integers_compare_rounded`: integers compare as the nearest numbers that doubles hold; up to 2 ^ 53
    that is exact, and no integer is ever called less than one that it is not less than.
  - `comparisons_consistent`: of two values that are not both lists, and not both numbers with a NaN among
    them, one of less, equal and greater is told, by every block that asks.
-/

import BlockEngine.Library.Data
import BlockEngine.Proofs.Double.Whole

namespace BlockEngine

open Double (rounded)

/-- What is said of two values: by the function that tells equality, and by every block that asks. -/
structure Value.Compared (x y : Value) (same less greater : Bool) : Prop where
  equal : x.equal y = same
  equalBlock : Library.equalBlock [x, y] = .done (.ofBool same)
  lessBlock : Library.lessBlock [x, y] = .done (.ofBool less)
  compareLess : Library.compareBlock [x, .ofText "<", y] = .done (.ofBool less)
  compareEqual : Library.compareBlock [x, .ofText "=", y] = .done (.ofBool same)
  compareGreater : Library.compareBlock [x, .ofText ">", y] = .done (.ofBool greater)

/-- Scalars that are numbers compare as their doubles. -/
theorem Scalar.compared_of_numeric (o p : Ownership) {s t : Scalar} (hs : s.isNumeric = true)
    (ht : t.isNumeric = true) :
    Value.Compared (.scalar o s) (.scalar p t) (s.toDouble.eq t.toDouble) (s.toDouble.lt t.toDouble)
      (!s.toDouble.lt t.toDouble && t.toDouble.lt s.toDouble) := by
  have hnumeric : (Value.scalar o s).isNumeric && (Value.scalar p t).isNumeric := by
    simp [Value.isNumeric, hs, ht]
  have hequal : (Value.scalar o s).equal (.scalar p t) = s.toDouble.eq t.toDouble := by
    unfold Value.equal Value.equalFlat
    exact if_pos hnumeric
  have horder : (Value.scalar o s).order (.scalar p t) =
      if s.toDouble.lt t.toDouble then .lt else if t.toDouble.lt s.toDouble then .gt else .eq := by
    unfold Value.order
    exact if_pos hnumeric
  have hless : ((Value.scalar o s).order (.scalar p t) == .lt) = s.toDouble.lt t.toDouble := by
    rw [horder]
    cases s.toDouble.lt t.toDouble <;> cases t.toDouble.lt s.toDouble <;> rfl
  have hgreater : ((Value.scalar o s).order (.scalar p t) == .gt) =
      (!s.toDouble.lt t.toDouble && t.toDouble.lt s.toDouble) := by
    rw [horder]
    cases s.toDouble.lt t.toDouble <;> cases t.toDouble.lt s.toDouble <;> rfl
  constructor
  · exact hequal
  · rw [← hequal]
    rfl
  · rw [← hless]
    rfl
  · rw [← hless]
    rfl
  · rw [← hequal]
    rfl
  · rw [← hgreater]
    rfl

theorem log2_integer_lt (a : Int64) : a.toInt.natAbs.log2 < 1000 := by
  have hlow := a.le_toInt
  have hhigh := a.toInt_lt
  by_cases hzero : a.toInt.natAbs = 0
  · rw [hzero, Nat.log2_zero]
    decide
  · have hlog : a.toInt.natAbs.log2 < 64 := (Nat.log2_lt hzero).mpr (by omega)
    omega

/-- Integers compare as the nearest numbers that doubles hold. -/
theorem integers_compared (a b : Int64) (o p : Ownership) :
    Value.Compared (.scalar o (.int a)) (.scalar p (.int b)) (decide (rounded a.toInt = rounded b.toInt))
      (decide (rounded a.toInt < rounded b.toInt)) (decide (rounded b.toInt < rounded a.toInt)) := by
  have h := Scalar.compared_of_numeric o p (s := .int a) (t := .int b) rfl rfl
  have hgreater : (!decide (rounded a.toInt < rounded b.toInt) && decide (rounded b.toInt < rounded a.toInt)) =
      decide (rounded b.toInt < rounded a.toInt) := by
    by_cases hlt : rounded b.toInt < rounded a.toInt
    · simp [hlt, Int.le_of_lt hlt]
    · simp [hlt]
  change Value.Compared _ _ ((Double.ofInt a.toInt).eq (.ofInt b.toInt)) ((Double.ofInt a.toInt).lt (.ofInt b.toInt))
    (!(Double.ofInt a.toInt).lt (.ofInt b.toInt) && (Double.ofInt b.toInt).lt (.ofInt a.toInt)) at h
  have ha := log2_integer_lt a
  have hb := log2_integer_lt b
  rwa [Double.ofInt_eq ha hb, Double.ofInt_lt ha hb, Double.ofInt_lt hb ha, hgreater] at h

/-- Integers compare as the nearest numbers that doubles hold: exactly up to 2 ^ 53 on both sides, and
    beyond that without ever telling the wrong order. -/
theorem integers_compare_rounded (a b : Int64) (o p : Ownership) :
    Value.Compared (.scalar o (.int a)) (.scalar p (.int b)) (decide (rounded a.toInt = rounded b.toInt))
        (decide (rounded a.toInt < rounded b.toInt)) (decide (rounded b.toInt < rounded a.toInt)) ∧
      (a.toInt.natAbs ≤ 2 ^ 53 → b.toInt.natAbs ≤ 2 ^ 53 →
        Value.Compared (.scalar o (.int a)) (.scalar p (.int b)) (decide (a = b)) (decide (a < b)) (decide (b < a))) ∧
      (rounded a.toInt < rounded b.toInt → a < b) := by
  have hcompared := integers_compared a b o p
  refine ⟨hcompared, fun ha hb => ?_, fun hlt => ?_⟩
  · rw [Double.rounded_exact ha, Double.rounded_exact hb] at hcompared
    have heq : decide (a.toInt = b.toInt) = decide (a = b) := decide_eq_decide.mpr Int64.toInt_inj
    have hless : decide (a.toInt < b.toInt) = decide (a < b) := decide_eq_decide.mpr Int64.lt_iff_toInt_lt.symm
    have hgreater : decide (b.toInt < a.toInt) = decide (b < a) := decide_eq_decide.mpr Int64.lt_iff_toInt_lt.symm
    rwa [heq, hless, hgreater] at hcompared
  · refine Int64.lt_iff_toInt_lt.mpr ?_
    by_contra hle
    have := Double.rounded_mono (Int.not_lt.mp hle)
    omega

/-- Both sides of a comparison up to 2 ^ 53. -/
theorem integers_compare_rounded_small :
    Value.Compared (.ofInt 9007199254740991) (.ofInt 9007199254740992) false true false ∧
      (9007199254740991 : Int64) < 9007199254740992 :=
  ⟨(integers_compare_rounded 9007199254740991 9007199254740992 .static .static).2.1 (by decide) (by decide),
    (integers_compare_rounded 9007199254740991 9007199254740992 .static .static).2.2 (by decide)⟩

/-- Past 2 ^ 53, an integer and the next one are told to be equal. -/
theorem integers_compared_equal :
    Value.Compared (.ofInt 9007199254740992) (.ofInt 9007199254740993) true false false ∧
      (9007199254740992 : Int64) ≠ 9007199254740993 ∧ (9007199254740992 : Int64) < 9007199254740993 :=
  ⟨integers_compared 9007199254740992 9007199254740993 .static .static, by decide, by decide⟩

/-! ## Every two values -/

namespace Text

theorem order_swap (s t : Text) : t.order s = (s.order t).swap := by
  induction s generalizing t with
  | nil => cases t <;> rfl
  | cons x s ih =>
    cases t with
    | nil => rfl
    | cons y t =>
      unfold order
      rcases Std.lt_trichotomy x y with hlt | rfl | hgt
      · have hnot : ¬y < x := UInt8.lt_asymm hlt
        simp [hlt, hnot]
      · simp [UInt8.lt_irrefl, ih]
      · have hnot : ¬x < y := UInt8.lt_asymm hgt
        simp [hgt, hnot]

theorem order_eq_iff {s t : Text} : s.order t = .eq ↔ s = t := by
  induction s generalizing t with
  | nil => cases t <;> simp [order]
  | cons x s ih =>
    cases t with
    | nil => simp [order]
    | cons y t =>
      unfold order
      rcases Std.lt_trichotomy x y with hlt | rfl | hgt
      · simp [hlt, UInt8.ne_of_lt hlt]
      · simp [UInt8.lt_irrefl, ih]
      · have hnot : ¬x < y := UInt8.lt_asymm hgt
        simp [hgt, hnot, (UInt8.ne_of_lt hgt).symm]

end Text

namespace Value

variable {a b : Value}

/-- Values that are not both lists are equal as numbers or by display form. -/
theorem equal_eq_flat (hlists : ¬(a.kind = .list ∧ b.kind = .list)) : a.equal b = a.equalFlat b := by
  cases a with
  | scalar o s => rfl
  | list o c xs =>
    cases b with
    | scalar p t => rfl
    | list p d ys => exact absurd ⟨rfl, rfl⟩ hlists

section

variable (hnan : a.isNumeric = true → b.isNumeric = true → a.toDouble.isNaN = false ∧ b.toDouble.isNaN = false)
include hnan

/-- Numbers other than NaNs are ordered by rank, all else by display form. -/
theorem order_eq_compare : a.order b =
    if a.isNumeric && b.isNumeric then compare a.toDouble.rank b.toDouble.rank else a.toText.order b.toText := by
  unfold order
  by_cases hnumeric : a.isNumeric && b.isNumeric
  · rw [Bool.and_eq_true] at hnumeric
    obtain ⟨ha, hb⟩ := hnan hnumeric.1 hnumeric.2
    simp only [hnumeric.1, hnumeric.2, Bool.and_self, if_true, Double.lt, ha, hb, Bool.not_false, Bool.true_and,
      decide_eq_true_eq, Int.compare_eq_ite_lt]
  · rw [if_neg hnumeric, if_neg hnumeric]

theorem order_swap : b.order a = (a.order b).swap := by
  rw [order_eq_compare hnan, order_eq_compare fun hb ha => (hnan ha hb).symm, Bool.and_comm]
  split
  · exact (Int.compare_swap ..).symm
  · exact Text.order_swap ..

theorem equalFlat_eq : a.equalFlat b = (a.order b == .eq) := by
  rw [order_eq_compare hnan]
  unfold equalFlat
  by_cases hnumeric : a.isNumeric && b.isNumeric
  · rw [if_pos hnumeric, if_pos hnumeric]
    rw [Bool.and_eq_true] at hnumeric
    obtain ⟨ha, hb⟩ := hnan hnumeric.1 hnumeric.2
    rw [Bool.eq_iff_iff]
    simp [Double.eq, ha, hb]
  · rw [if_neg hnumeric, if_neg hnumeric, Bool.eq_iff_iff]
    simp [Text.order_eq_iff]

end

end Value

namespace Library

def symbolOf : Ordering → Text
  | .lt => "<"
  | .eq => "="
  | .gt => ">"

theorem compareBlock_symbolOf (a b : Value) (o : Ordering) : compareBlock [a, .ofText (symbolOf o), b] =
    .done (.ofBool (if o = .eq then a.equal b else a.order b == o)) := by
  cases o <;> rfl

end Library

open Library

section

variable {a b : Value} (hlists : ¬(a.kind = .list ∧ b.kind = .list))
  (hnan : a.isNumeric = true → b.isNumeric = true → a.toDouble.isNaN = false ∧ b.toDouble.isNaN = false)
include hlists hnan

theorem Value.equal_eq_order : a.equal b = (a.order b == .eq) := by
  rw [equal_eq_flat hlists, equalFlat_eq hnan]

/-- Of the three symbols, that of the ordering is answered with true. -/
theorem Library.compareBlock_eq (o : Ordering) : compareBlock [a, .ofText (symbolOf o), b] =
    .done (.ofBool (o == a.order b)) := by
  rw [compareBlock_symbolOf, Value.equal_eq_order hlists hnan]
  cases o <;> cases a.order b <;> rfl

end

/-- Comparisons are consistent, of all values but two lists, or two numbers of which one is a NaN. Of the three symbols one
    is answered with true, the blocks that ask for one answer give that answer, and with the operands in the other order each
    symbol is answered as its opposite was. -/
theorem comparisons_consistent (a b : Value) (hlists : ¬(a.kind = .list ∧ b.kind = .list))
    (hnan : a.isNumeric = true → b.isNumeric = true → a.toDouble.isNaN = false ∧ b.toDouble.isNaN = false) :
    (∃ o, ∀ p, compareBlock [a, .ofText (symbolOf p), b] = .done (.ofBool (p == o))) ∧
      lessBlock [a, b] = compareBlock [a, .ofText "<", b] ∧
      equalBlock [a, b] = compareBlock [a, .ofText "=", b] ∧
      (∀ p, compareBlock [b, .ofText (symbolOf p.swap), a] = compareBlock [a, .ofText (symbolOf p), b]) ∧
      equalBlock [a, b] = equalBlock [b, a] ∧ a.equal b = b.equal a := by
  have hlists' : ¬(b.kind = .list ∧ a.kind = .list) := fun h => hlists h.symm
  have hnan' : b.isNumeric = true → a.isNumeric = true → b.toDouble.isNaN = false ∧ a.toDouble.isNaN = false :=
    fun hb ha => (hnan ha hb).symm
  have hswap : ∀ p, compareBlock [b, .ofText (symbolOf p.swap), a] = compareBlock [a, .ofText (symbolOf p), b] := by
    intro p
    rw [compareBlock_eq hlists' hnan', compareBlock_eq hlists hnan, Value.order_swap hnan]
    cases p <;> cases a.order b <;> rfl
  have hequal : a.equal b = b.equal a := by
    rw [Value.equal_eq_order hlists hnan, Value.equal_eq_order hlists' hnan', Value.order_swap hnan]
    cases a.order b <;> rfl
  refine ⟨⟨a.order b, compareBlock_eq hlists hnan⟩, rfl, rfl, hswap, ?_, hequal⟩
  exact congrArg (fun same => Proc.done (Value.ofBool same)) hequal

/-- An integer and a text that spells a number compare as numbers do, and a list and a number as texts do. -/
theorem comparisons_consistent_mixed :
    (∃ o, ∀ p, compareBlock [.ofInt 9, .ofText (symbolOf p), .ofText " 1e1 "] = .done (.ofBool (p == o))) ∧
      ∃ o, ∀ p, compareBlock [.list .managed 0 [.ofInt 1], .ofText (symbolOf p), .ofText "[1]"] =
        .done (.ofBool (p == o)) :=
  ⟨(comparisons_consistent (.ofInt 9) (.ofText " 1e1 ") (by decide) (by decide)).1,
    (comparisons_consistent (.list .managed 0 [.ofInt 1]) (.ofText "[1]") (by decide) (by decide)).1⟩

/-- Against a NaN no symbol is answered with true. -/
example (p : Ordering) : compareBlock [.ofInt 1, .ofText (symbolOf p), .ofText "nan"] = .done (.ofBool false) := by
  cases p <;> rfl

end BlockEngine
