/-
  BlockEngine.Proofs.Double.Spelling — the number that a text spells, taken exactly.

  `spells?` reads a text as `numeral?` does and gives the number itself, its exponent in full. `numeral?`
  stops at exponents of five digits (`Capped`), which makes no difference to any whole number that a double
  comes near: what remains of the exponent is an overflow either way, or the number is 0.

  A text without point and decimal exponent is decimal digits, and spells a whole number, or hexadecimal
  digits with a binary exponent, and may spell a fraction (`Spelled`). Underscores may stand in both.

  Proved:
  - `integer?_exact`: what is read as decimal digits is read exactly.
  - `spelled_of_unmarked`: the two forms of a text without point and decimal exponent.
  - `Spelled.truncate?`: a whole number so spelled comes back from its double rounded.
-/

import BlockEngine.Double.Numeral
import BlockEngine.Proofs.Double.Truncation
import Mathlib.Algebra.Order.Field.Basic
import Mathlib.Tactic.NormNum

namespace BlockEngine.Numeral

/-! ## Exact reading -/

/-- Reads the digits of an exponent, however large. -/
def exponentValue (e : Nat) : Text → Nat × Text
  | [] => (e, [])
  | b :: rest =>
    if b = Text.byte '_' then exponentValue e rest
    else
      match Text.digit? b with
      | some d => exponentValue (e * 10 + d) rest
      | none => (e, b :: rest)

def exponentValue? (t : Text) : Option (Int × Text) :=
  let (negative, digits) := sign t
  match digits with
  | [] => none
  | b :: _ =>
    if (Text.digit? b).isSome then
      let (e, rest) := exponentValue 0 digits
      some (if negative then -(e : Int) else e, rest)
    else none

def decimalValue? (t : Text) : Option (ℚ × Text) :=
  let (s, rest) := significand 10 Text.digit? {} t
  if s.digits then
    match afterMark? 'e' rest with
    | some more => do
      let (e, rest) ← exponentValue? more
      some ((s.value : ℚ) * (10 : ℚ) ^ (e - s.places), rest)
    | none => some ((s.value : ℚ) * (10 : ℚ) ^ (-(s.places : Int)), rest)
  else none

def hexadecimalValue? (t : Text) : Option (ℚ × Text) :=
  let (s, rest) := significand 16 Text.hexDigit? {} t
  if s.digits then do
    let more ← afterMark? 'p' rest
    let (e, rest) ← exponentValue? more
    some ((s.value : ℚ) * (2 : ℚ) ^ (e - 4 * s.places), rest)
  else none

def signed (negative : Bool) (q : ℚ) : ℚ := if negative then -q else q

/-- The number that a whole text spells. Infinities and NaNs are no numbers. -/
def spells? (t : Text) : Option ℚ :=
  match word? t with
  | some _ => none
  | none =>
    let (negative, rest) := sign t
    let read := match afterHexMark? rest with
      | some digits => hexadecimalValue? digits
      | none => decimalValue? rest
    match read with
    | some (q, []) =>
      if t.contains (Text.byte '_') && !underscoresOk t then none else some (signed negative q)
    | _ => none

def isHexadecimal (t : Text) : Bool := (afterHexMark? (sign t).2).isSome

/-! ## Exponents -/

/-- The exponent `c` is what is read of `e`: all of it, or its first digits, five of them. -/
def Capped (c e : Int) : Prop := c = e ∨ 10000 ≤ c ∧ 10 * c ≤ e ∨ c ≤ -10000 ∧ e ≤ 10 * c

theorem exponentDigits_capped {c e : Nat} (h : Capped c e) (t : Text) :
    (exponentDigits c t).2 = (exponentValue e t).2 ∧ Capped (exponentDigits c t).1 (exponentValue e t).1 := by
  induction t generalizing c e with
  | nil => exact ⟨rfl, h⟩
  | cons b rest ih =>
    unfold exponentDigits exponentValue
    by_cases hb : b = Text.byte '_'
    · rw [if_pos hb, if_pos hb]
      exact ih h
    rw [if_neg hb, if_neg hb]
    cases Text.digit? b with
    | none => exact ⟨rfl, h⟩
    | some d =>
      refine ih ?_
      unfold Capped at h ⊢
      split <;> omega

theorem exponent?_capped {t rest : Text} {c : Int} (h : exponent? t = some (c, rest)) :
    ∃ e, exponentValue? t = some (e, rest) ∧ Capped c e := by
  unfold exponent? at h
  unfold exponentValue?
  generalize sign t = p at h ⊢
  obtain ⟨negative, digits⟩ := p
  cases digits with
  | nil => cases h
  | cons b digits =>
    dsimp only at h ⊢
    split at h
    · obtain ⟨hrest, hcapped⟩ := exponentDigits_capped (c := 0) (e := 0) (.inl rfl) (b :: digits)
      rw [if_pos ‹_›, ← hrest]
      simp only [Option.some.injEq, Prod.mk.injEq] at h
      obtain ⟨rfl, rfl⟩ := h
      refine ⟨_, rfl, ?_⟩
      unfold Capped at hcapped ⊢
      cases negative
      all_goals simp only [Bool.false_eq_true, if_false, if_true]
      all_goals omega
    · cases h

/-! ## Digits -/

section

variable {base : Nat} {digit : UInt8 → Option Nat} {s : Significand} {t : Text}

/-- What is left of a text when the digits are read is its end. -/
theorem significand_suffix : (significand base digit s t).2 <:+ t := by
  fun_induction significand base digit s t with
  | case1 => exact List.suffix_refl _
  | case2 _ _ ih => exact ih.trans (List.suffix_cons ..)
  | case3 _ _ _ _ _ ih => exact ih.trans (List.suffix_cons ..)
  | case4 _ _ _ _ _ _ _ _ ih => exact ih.trans (List.suffix_cons ..)
  | case5 => exact List.suffix_refl _

/-- Without a point, no digits stand after it. -/
theorem significand_places (ht : Text.byte '.' ∉ t) (hs : s.point = false) :
    (significand base digit s t).1.places = s.places := by
  induction t generalizing s with
  | nil => rfl
  | cons b rest ih =>
    rw [List.mem_cons, not_or] at ht
    unfold significand
    split
    · exact ih ht.2 hs
    rw [if_neg fun h => ht.1 h.1.symm]
    cases digit b with
    | none => rfl
    | some d =>
      dsimp only
      rw [hs, if_neg Bool.false_ne_true]
      exact ih ht.2 rfl

/-- A text of digits is read to its end. -/
theorem significand_all_digits (ht : t.all (fun b => (Text.digit? b).isSome)) (hs : s.point = false) :
    (significand 10 Text.digit? s t).2 = [] ∧
      (significand 10 Text.digit? s t).1.value =
        t.foldl (fun n b => n * 10 + (Text.digit? b).getD 0) s.value := by
  induction t generalizing s with
  | nil => exact ⟨rfl, rfl⟩
  | cons b rest ih =>
    rw [List.all_cons, Bool.and_eq_true] at ht
    obtain ⟨hb, hrest⟩ := ht
    unfold significand
    rw [if_neg (by rintro rfl; exact absurd hb (by decide)), if_neg (by rintro ⟨rfl, -⟩; exact absurd hb (by decide))]
    obtain ⟨d, hd⟩ := Option.isSome_iff_exists.mp hb
    rw [List.foldl_cons, hd]
    exact ih hrest hs

end

/-! ## Texts without point and decimal exponent -/

/-- There is no point in the text, and no mark of a decimal exponent. -/
structure Unmarked (t : Text) : Prop where
  point : Text.byte '.' ∉ t
  lower : Text.byte 'e' ∉ t
  upper : Text.byte 'E' ∉ t

theorem Unmarked.suffix {t rest : Text} (ht : Unmarked t) (h : rest <:+ t) : Unmarked rest where
  point hb := ht.point (h.subset hb)
  lower hb := ht.lower (h.subset hb)
  upper hb := ht.upper (h.subset hb)

theorem sign_suffix (t : Text) : (sign t).2 <:+ t := by
  unfold sign
  split
  · exact List.suffix_refl _
  split
  · exact List.suffix_cons ..
  split
  · exact List.suffix_cons ..
  · exact List.suffix_refl _

theorem afterHexMark?_suffix {t rest : Text} (h : afterHexMark? t = some rest) : rest <:+ t := by
  unfold afterHexMark? at h
  split at h
  · split at h
    · cases h
      exact ⟨[_, _], rfl⟩
    · cases h
  · cases h

/-- A byte that is a letter in lower case is that letter, in either case. -/
theorem lower_eq {b c : UInt8} (h : Text.lower [b] = [c]) : b = c ∨ b + 0x20 = c := by
  simp only [Text.lower, List.map_cons, List.map_nil, List.cons.injEq, and_true] at h
  split at h
  · exact .inr h
  · exact .inl h

theorem afterMark?_unmarked {t : Text} (ht : Unmarked t) : afterMark? 'e' t = none := by
  cases t with
  | nil => rfl
  | cons b rest =>
    refine if_neg fun hb => ?_
    rcases lower_eq hb with rfl | hupper
    · exact ht.lower List.mem_cons_self
    · obtain rfl : b = Text.byte 'E' := (UInt8.add_left_inj 0x20).mp hupper
      exact ht.upper List.mem_cons_self

section

variable {t rest : Text} {negative : Bool} {n : Numeral} (ht : Unmarked t)
include ht

theorem decimal?_unmarked (h : decimal? negative t = some (n, rest)) :
    ∃ digits : Nat, n = .decimal negative digits 0 ∧ decimalValue? t = some ((digits : ℚ), rest) := by
  have hplaces : (significand 10 Text.digit? {} t).1.places = 0 := significand_places ht.point rfl
  have hrest : (significand 10 Text.digit? {} t).2 <:+ t := significand_suffix
  have hmark := afterMark?_unmarked (ht.suffix hrest)
  unfold decimal? at h
  unfold decimalValue?
  dsimp only at h ⊢
  rw [hmark, hplaces] at h ⊢
  split at h
  next hdigits =>
    rw [if_pos hdigits]
    cases h
    refine ⟨_, rfl, ?_⟩
    simp
  next => cases h

theorem hexadecimal?_unmarked (h : hexadecimal? negative t = some (n, rest)) :
    ∃ (digits : Nat) (c e : Int), n = .binary negative digits c ∧ Capped c e ∧
      hexadecimalValue? t = some ((digits : ℚ) * (2 : ℚ) ^ e, rest) := by
  have hplaces : (significand 16 Text.hexDigit? {} t).1.places = 0 := significand_places ht.point rfl
  unfold hexadecimal? at h
  unfold hexadecimalValue?
  dsimp only at h ⊢
  rw [hplaces] at h ⊢
  split at h
  next hdigits =>
    rw [if_pos hdigits]
    obtain ⟨more, hmore, h⟩ := Option.bind_eq_some_iff.mp h
    obtain ⟨⟨c, rest'⟩, hc, h⟩ := Option.bind_eq_some_iff.mp h
    obtain ⟨e, he, hcapped⟩ := exponent?_capped hc
    cases h
    refine ⟨(significand 16 Text.hexDigit? {} t).1.value, c, e, ?_, hcapped, ?_⟩
    · simp
    · simp [hmore, he]
  next => cases h

end

/-- The two forms of a numeral without point and decimal exponent, with the number it spells. -/
inductive Spelled (t : Text) : Numeral → ℚ → Prop
  | decimal (negative : Bool) (digits : Nat) : isHexadecimal t = false →
      Spelled t (.decimal negative digits 0) (signed negative digits)
  | binary (negative : Bool) (digits : Nat) {c e : Int} : isHexadecimal t = true → Capped c e →
      Spelled t (.binary negative digits c) (signed negative ((digits : ℚ) * (2 : ℚ) ^ e))

/-- What is read of the unsigned part, as a numeral and as a number. -/
theorem unsigned_of_unmarked {t left : Text} {n : Numeral} (ht : Unmarked t)
    (h : (match afterHexMark? (sign t).2 with
      | some digits => hexadecimal? (sign t).1 digits
      | none => decimal? (sign t).1 (sign t).2) = some (n, left)) :
    ∃ q, (match afterHexMark? (sign t).2 with
      | some digits => hexadecimalValue? digits
      | none => decimalValue? (sign t).2) = some (q, left) ∧ Spelled t n (signed (sign t).1 q) := by
  have hrest := ht.suffix (sign_suffix t)
  cases hhex : afterHexMark? (sign t).2 with
  | none =>
    rw [hhex] at h
    obtain ⟨digits, rfl, hvalue⟩ := decimal?_unmarked hrest h
    refine ⟨_, hvalue, .decimal _ digits ?_⟩
    rw [isHexadecimal, hhex]
    rfl
  | some digits =>
    rw [hhex] at h
    obtain ⟨m, c, e, rfl, hcapped, hvalue⟩ := hexadecimal?_unmarked (hrest.suffix (afterHexMark?_suffix hhex)) h
    refine ⟨_, hvalue, .binary _ m ?_ hcapped⟩
    rw [isHexadecimal, hhex]
    rfl

/-- What a text without point and decimal exponent spells is a word, or one of the two forms. -/
theorem spelled_of_unmarked {t : Text} {n : Numeral} (ht : Unmarked t) (h : numeral? t = some n) :
    (word? t = some n ∧ spells? t = none) ∨ ∃ q, spells? t = some q ∧ Spelled t n q := by
  unfold numeral? at h
  unfold spells?
  split at h
  next hword =>
    rw [hword]
    exact .inl ⟨h, rfl⟩
  next hword =>
    rw [hword]
    dsimp only at h ⊢
    split at h
    next read _ hread =>
      obtain ⟨q, hq, hspelled⟩ := unsigned_of_unmarked ht hread
      rw [hq]
      dsimp only
      split at h
      · cases h
      next hscore =>
        cases h
        rw [if_neg hscore]
        exact .inr ⟨_, rfl, hspelled⟩
    · cases h

/-! ## Decimal digits -/

section

variable {t : Text} (ht : t.all fun b => (Text.digit? b).isSome)
include ht

theorem afterHexMark?_digits : afterHexMark? t = none := by
  unfold afterHexMark?
  split
  next z x d rest =>
    refine if_neg fun h => ?_
    simp only [List.all_cons, Bool.and_eq_true] at ht
    rcases lower_eq h.2 with rfl | hupper
    · exact absurd ht.2.1 (by decide)
    · obtain rfl : x = Text.byte 'X' := (UInt8.add_left_inj 0x20).mp hupper
      exact absurd ht.2.1 (by decide)
  · rfl

theorem decimalValue?_digits {q : ℚ} {left : Text} (h : decimalValue? t = some (q, left)) :
    q = (t.foldl (fun n b => n * 10 + (Text.digit? b).getD 0) 0 : Nat) ∧ left = [] := by
  obtain ⟨hend, hvalue⟩ := significand_all_digits (s := {}) ht rfl
  have hplaces : (significand 10 Text.digit? {} t).1.places = 0 := by
    refine significand_places (fun hb => ?_) rfl
    exact absurd (List.all_eq_true.mp ht _ hb) (by decide)
  unfold decimalValue? at h
  dsimp only at h
  rw [hend, hvalue, hplaces] at h
  split at h
  · cases h
    simp
  · cases h

end

/-- What is read as decimal digits is read exactly. -/
theorem integer?_exact {t : Text} {z : Int} {q : ℚ} (h : integer? t = some z) (hq : spells? t = some q) : q = z := by
  unfold integer? at h
  dsimp only at h
  split at h
  · cases h
  next hdigits =>
  rw [Bool.or_eq_true, not_or, Bool.not_eq_true', Bool.not_eq_false] at hdigits
  unfold spells? at hq
  split at hq
  · cases hq
  dsimp only at hq
  rw [afterHexMark?_digits hdigits.2] at hq
  dsimp only at hq
  split at hq
  next r hr =>
    obtain ⟨rfl, -⟩ := decimalValue?_digits hdigits.2 hr
    split at hq
    · cases hq
    · cases hq
      cases h
      unfold signed
      split <;> push_cast <;> rfl
  · cases hq

/-! ## Doubles of spelled numbers -/

/-- A whole number, given by digits and a power of two, is rounded as itself. -/
theorem ofScaled_whole (negative : Bool) {m n : Nat} {e : Int} (h : (m : ℚ) * (2 : ℚ) ^ e = n) :
    Double.ofScaled negative m e = Double.ofRatio negative n 1 := by
  unfold Double.ofScaled
  split
  next he =>
    obtain ⟨k, rfl⟩ := Int.eq_ofNat_of_zero_le he
    rw [zpow_natCast] at h
    congr 1
    rw [Int.toNat_natCast]
    exact_mod_cast h
  next he =>
    obtain ⟨k, rfl⟩ : ∃ k : Nat, e = -k := ⟨(-e).toNat, by omega⟩
    rw [zpow_neg, zpow_natCast] at h
    have hm : m = n * 2 ^ k := by
      rw [← div_eq_mul_inv, div_eq_iff (by positivity)] at h
      exact_mod_cast h
    rw [Int.neg_neg, Int.toNat_natCast, hm]
    nth_rewrite 2 [← Nat.one_mul (2 ^ k)]
    exact Double.ofRatio_shift negative Nat.one_ne_zero k

/-- A whole number is rounded as itself also if its exponent is not read to the end: or else it becomes an
    infinity. -/
theorem ofScaled_capped {negative : Bool} {m n : Nat} {c e : Int} (hcapped : Capped c e)
    (h : (m : ℚ) * (2 : ℚ) ^ e = n) (hn : n.log2 < 1000) (hfin : (Double.ofScaled negative m c).isInfinite = false) :
    Double.ofScaled negative m c = Double.ofRatio negative n 1 := by
  rcases hcapped with rfl | ⟨hc, he⟩ | ⟨hc, he⟩
  · exact ofScaled_whole negative h
  · obtain ⟨k, rfl⟩ := Int.eq_ofNat_of_zero_le (show 0 ≤ e by omega)
    have hmn : m * 2 ^ k = n := by
      rw [zpow_natCast] at h
      exact_mod_cast h
    have hm : m = 0 := by
      by_contra hm
      rw [← hmn, Double.log2_mul_pow hm] at hn
      omega
    rw [← hmn, hm, Nat.zero_mul, Double.ofScaled_zero]
    rfl
  · obtain ⟨k, hk⟩ := Int.eq_ofNat_of_zero_le (show 0 ≤ c - e by omega)
    have hwhole : (m : ℚ) * (2 : ℚ) ^ c = (n * 2 ^ k : Nat) := by
      rw [show c = e + k by omega, zpow_add₀ two_ne_zero, zpow_natCast, ← mul_assoc, h]
      push_cast
      rfl
    rw [ofScaled_whole negative hwhole] at hfin ⊢
    by_cases hzero : n = 0
    · rw [hzero, Nat.zero_mul]
    · have hlog := Double.log2_mul_pow hzero k
      rw [Double.ofRatio_infinite negative (by omega), Double.isInfinite_infinity] at hfin
      cases hfin

theorem signed_eq_intCast {negative : Bool} {q : ℚ} {z : Int} (hq : 0 ≤ q) (h : signed negative q = z) :
    q = z.natAbs ∧ (if negative then -(z.natAbs : Int) else z.natAbs) = z := by
  unfold signed at h
  cases negative with
  | false =>
    rw [if_neg Bool.false_ne_true] at h ⊢
    have hz : 0 ≤ z := by
      rw [h] at hq
      exact_mod_cast hq
    have habs : (z.natAbs : Int) = z := Int.natAbs_of_nonneg hz
    refine ⟨?_, habs⟩
    rw [h, ← Int.cast_natCast, habs]
  | true =>
    rw [if_pos rfl] at h ⊢
    have hz : z ≤ 0 := by
      have hcast : (z : ℚ) ≤ 0 := by
        rw [← h]
        exact neg_nonpos.mpr hq
      exact_mod_cast hcast
    have habs : (z.natAbs : Int) = -z := by omega
    refine ⟨?_, by rw [habs, Int.neg_neg]⟩
    rw [← Int.cast_natCast, habs, Int.cast_neg, ← h, neg_neg]

theorem finite?_eq_some {x y : Double} (h : toDouble?.finite? y = some x) : y.isInfinite = false ∧ y = x := by
  unfold toDouble?.finite? at h
  split at h
  · cases h
  next hinfinite =>
    cases h
    exact ⟨Bool.eq_false_iff.mpr hinfinite, rfl⟩

/-- A whole number comes back from the double of a text that spells it as the nearest one that a double
    holds. -/
theorem Spelled.truncate? {t : Text} {n : Numeral} {q : ℚ} {x : Double} {z : Int} (h : Spelled t n q)
    (hx : n.toDouble? = some x) (hz : q = z) (hsmall : z.natAbs.log2 < 1000) :
    x.truncate? = some (Double.rounded z) := by
  have hratio : ∃ negative, (if negative then -(z.natAbs : Int) else z.natAbs) = z ∧ x.isInfinite = false ∧
      x = Double.ofRatio negative z.natAbs 1 := by
    cases h with
    | decimal negative digits hhex =>
      obtain ⟨hdigits, hsigned⟩ := signed_eq_intCast (Nat.cast_nonneg digits) hz
      obtain ⟨hfin, rfl⟩ := finite?_eq_some hx
      refine ⟨negative, hsigned, hfin, ?_⟩
      rw [← Nat.cast_injective hdigits]
      simp
    | @binary negative digits c e hhex hcapped =>
      have hnonneg : 0 ≤ (digits : ℚ) * (2 : ℚ) ^ e :=
        mul_nonneg (Nat.cast_nonneg digits) (zpow_nonneg (by norm_num) e)
      obtain ⟨hdigits, hsigned⟩ := signed_eq_intCast hnonneg hz
      obtain ⟨hfin, rfl⟩ := finite?_eq_some hx
      exact ⟨negative, hsigned, hfin, ofScaled_capped hcapped hdigits hsmall hfin⟩
  obtain ⟨negative, hsigned, hfin, rfl⟩ := hratio
  rw [Double.truncate?_ofRatio negative hsmall hfin, hsigned]

end BlockEngine.Numeral
