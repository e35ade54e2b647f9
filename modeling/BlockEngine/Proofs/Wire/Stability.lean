/-
  BlockEngine.Proofs.Wire.Stability — writing again what was read.

  A value that accepted bytes hold can always be written, and it agrees with what is read back
  from that: only the sign of a zero and the payload of a NaN can differ. There is one value that
  is written with more levels than it may have been read with: Nothing, which null stands for
  without a level of its own. Inside sixteen lists, where all 32 levels are used up, it can be
  read but not read again (`rewriting_is_stable`, `null_inside_sixteen_lists`).
-/

import BlockEngine.Proofs.Wire.Accepted
import BlockEngine.Proofs.Wire.RoundTrip

namespace BlockEngine

/-! ## Agreement -/

/-- Equal but for the sign of a zero and the payload of a NaN. -/
def Double.Agrees (x y : Double) : Prop := x = y ∨ x.isZero = true ∧ y.isZero = true ∨ x.isNaN = true ∧ y.isNaN = true

inductive Value.Agrees : Value → Value → Prop where
  | scalar (own : Ownership) (s : Scalar) : Agrees (.scalar own s) (.scalar own s)
  | double (own : Ownership) {x y : Double} (h : x.Agrees y) : Agrees (.scalar own (.double x)) (.scalar own (.double y))
  | list (own : Ownership) (cell : Cell) {xs ys : List Value} (h : List.Forall₂ Agrees xs ys) :
    Agrees (.list own cell xs) (.list own cell ys)

/-- A double agrees with what is read back for it. -/
theorem Double.agrees_received (x : Double) : x.Agrees (if x.isZero then .zero else Wire.canonical x) := by
  by_cases hzero : x.isZero = true
  · rw [if_pos hzero]
    exact .inr (.inl ⟨hzero, by decide⟩)
  · rw [if_neg hzero, Wire.canonical]
    split
    next hnan => exact .inr (.inr ⟨hnan, by decide⟩)
    · exact .inl rfl

namespace Value

/-! ## Nesting -/

/-- A value lies in another with `k` lists around it. -/
inductive Under (u : Value) : Nat → Value → Prop where
  | self : Under u 0 u
  | element {k : Nat} {own : Ownership} {cell : Cell} {items : List Value} {v : Value} (hmem : v ∈ items)
    (h : Under u k v) : Under u (k + 1) (.list own cell items)

theorem levels_pos (v : Value) : 0 < v.levels := by
  have hodd := v.levels_odd
  omega

/-- A value takes more than two levels for each of `k` lists exactly if something lies in `k` lists. -/
theorem lt_levels {k : Nat} {v : Value} : 2 * k < v.levels ↔ ∃ u : Value, u.Under k v := by
  induction k generalizing v with
  | zero => exact iff_of_true v.levels_pos ⟨v, .self⟩
  | succ k ih =>
    cases v with
    | scalar own s =>
      refine iff_of_false (by simp only [levels]; omega) ?_
      rintro ⟨u, hu⟩
      cases hu
    | list own cell items =>
      have hall : 2 * (k + 1) < (list own cell items).levels ↔ ¬ levelsAll items ≤ 2 * k := by
        cases items with
        | nil => simp [levels, levelsAll]
        | cons v vs =>
          simp only [levels, List.isEmpty_cons, Bool.false_eq_true, if_false]
          omega
      rw [hall, levelsAll_le]
      push Not
      constructor
      · rintro ⟨v, hv, hlevels⟩
        obtain ⟨u, hu⟩ := ih.mp hlevels
        exact ⟨u, .element hv hu⟩
      · rintro ⟨u, hu⟩
        cases hu with
        | element hv hu => exact ⟨_, hv, ih.mpr ⟨u, hu⟩⟩

/-! ## Values that were read -/

variable {n d : Nat} {v : Value}

/-- What lies in `k` lists has two levels less for each. -/
theorem Fits.under {u : Value} {k : Nat} (hu : u.Under k v) (h : v.Fits n d) : 2 * k ≤ d ∧ u.Fits n (d - 2 * k) := by
  induction hu generalizing d with
  | self => exact ⟨Nat.zero_le _, h⟩
  | @element k own cell items v hv _ ih =>
    cases h with
    | @list d _ _ hroom hitems =>
      have hpos := hroom (List.ne_nil_of_mem hv)
      obtain ⟨hle, hfits⟩ := ih (hitems v hv)
      have hlevels : d + 1 - 2 * (k + 1) = d - 1 - 2 * k := by omega
      rw [hlevels]
      exact ⟨by omega, hfits⟩

/-- What fits no level is Nothing. -/
theorem Fits.nothing_of_zero (h : v.Fits n 0) : v = .nothing := by
  cases h
  rfl

/-- What holds of Nothing, of shown scalars within the bytes and of lists within the reader's limit holds
    everywhere in a value that was read. -/
theorem Fits.everywhere {P : Value → Prop} (h : v.Fits n d)
    (hscalar : ∀ s : Scalar, ¬ (Value.scalar .static s).Hidden → (Value.scalar .static s).Legible →
      (∀ t, s = .str t → t.length ≤ n) → P (.scalar .static s))
    (hlist : ∀ items : List Value, items.length ≤ Wire.maxElements → P (.list .unmanaged 0 items)) : v.Everywhere P := by
  induction h with
  | nothing =>
    rw [Value.nothing, everywhere_scalar]
    exact hscalar _ (by simp [Hidden, kind, Scalar.kind]) trivial (by simp)
  | scalar hshown hlegible hlength =>
    rw [everywhere_scalar]
    exact hscalar _ hshown hlegible hlength
  | list hcount _ _ ih =>
    rw [everywhere_list]
    exact ⟨hlist _ hcount, ih⟩

theorem Fits.shown (h : v.Fits n d) : v.Everywhere fun u => ¬ u.Hidden :=
  h.everywhere (fun _ hshown _ _ => hshown) fun _ _ => by simp [Hidden, kind]

theorem Fits.legible (h : v.Fits n d) : v.Everywhere Legible :=
  h.everywhere (fun _ _ hlegible _ => hlegible) fun _ _ => trivial

theorem Fits.short (h : v.Fits n d) : v.Everywhere (Short 131072) :=
  h.everywhere (fun _ _ _ _ => trivial) fun _ hcount => hcount

theorem Fits.sized (h : v.Fits n d) (hn : n < 2 ^ 63) : v.Everywhere Sized := by
  refine h.everywhere (fun s _ _ hlength => ?_) fun items hcount => ?_
  · cases s with
    | str t => exact (hlength t rfl).trans_lt hn
    | _ => trivial
  · exact hcount.trans_lt (by decide)

/-- A value that was read agrees with what is read back for it. -/
theorem Fits.agrees_received (h : v.Fits n d) : v.Agrees v.received := by
  induction h with
  | nothing => exact .scalar _ _
  | @scalar d s _ _ _ =>
    cases s with
    | double x => exact .double _ x.agrees_received
    | _ => exact .scalar _ _
  | list _ _ _ ih =>
    rw [received, receivedAll_eq]
    exact .list _ _ (List.forall₂_map_right_iff.mpr (List.forall₂_same.mpr ih))

end Value

namespace Wire

/-- A value that bytes hold is within the reader's limits unless something lies in sixteen lists. -/
theorem receivable_iff {n : Nat} {v : Value} (h : v.Fits n maxDepth) : Receivable v ↔ ¬ ∃ u : Value, u.Under 16 v := by
  rw [← Value.lt_levels, Nat.not_lt]
  exact ⟨fun hv => hv.shallow, fun hlevels => ⟨h.legible, h.short, hlevels⟩⟩

/-- What bytes hold can be written, and read again unless something lies in sixteen lists, one in the
    other; that can only be Nothing. What is read again agrees with it. Lengths of bytes have 63 bits. -/
theorem rewriting_is_stable {k : Codec} (hk : k.Documented) {t : Text} (ht : t.length < 2 ^ 63) {v : Value}
    (h : k.decode t = .ok v) :
    ∃ t', k.encode v = .ok t' ∧
      ((∃ w, k.decode t' = .ok w) ↔ ¬ ∃ u : Value, u.Under 16 v) ∧
      (∀ w, k.decode t' = .ok w → v.Agrees w) ∧
      ∀ (u : Value) (n : Nat), u.Under n v → n ≤ 16 ∧ (n = 16 → u = .nothing) := by
  have hfits := hk.decode_fits h
  have hread := decode_okIff hk hfits.shown (hfits.sized ht)
  refine ⟨_, (encode_okIff k v).ok hfits.shown, ?_, ?_, ?_⟩
  · rw [hread.isOk_iff, receivable_iff hfits]
  · intro w hw
    rw [hread.eq_of_ok hw]
    exact hfits.agrees_received
  · intro u n hu
    obtain ⟨hn, hleft⟩ := hfits.under hu
    have hdepth : maxDepth = 32 := rfl
    refine ⟨by omega, ?_⟩
    rintro rfl
    exact hleft.nothing_of_zero

/-- A tagged map of unknown length: a list of null and a negative zero. -/
theorem rewriting_is_stable_open :
    ∃ (t t' : Text) (v w : Value),
      t = [0xD9, 0xD9, 0xF7, 0xBF, 0x01, 0x05, 0x05, 0x9F, 0xF6, 0xA2, 0x01, 0x02, 0x03, 0xF9, 0x80, 0x00, 0xFF, 0xFF] ∧
      v = .list .unmanaged 0 [.nothing, .ofDouble ⟨0x8000000000000000⟩] ∧
      decode t = .ok v ∧ encode v = .ok t' ∧ decode t' = .ok w ∧ v.Agrees w := by
  generalize ht : ([0xD9, 0xD9, 0xF7, 0xBF, 0x01, 0x05, 0x05, 0x9F, 0xF6, 0xA2, 0x01, 0x02, 0x03, 0xF9, 0x80, 0x00, 0xFF,
    0xFF] : Text) = t
  generalize hv : Value.list .unmanaged 0 [.nothing, .ofDouble ⟨0x8000000000000000⟩] = v
  have hdecode : decode t = .ok v := by
    subst ht hv
    rfl
  obtain ⟨t', hencode, hread, hagrees, -⟩ := rewriting_is_stable cbor_documented (by simp [← ht]) hdecode
  obtain ⟨w, hw⟩ := hread.mpr (by
    rintro ⟨u, hu⟩
    have hdeep := Value.lt_levels.mpr ⟨u, hu⟩
    simp [← hv, Value.levels, Value.levelsAll, Value.nothing, Value.ofDouble] at hdeep)
  exact ⟨t, t', v, w, rfl, rfl, hdecode, hencode, hw, hagrees w hw⟩

/-- Null inside sixteen lists: the lists take all the levels, and Nothing is written with one more. -/
theorem null_inside_sixteen_lists :
    ∃ (t t' : Text) (v : Value),
      t = (List.replicate 16 [0xA2, 0x01, 0x05, 0x05, 0x81]).flatten ++ [0xF6] ∧
      decode t = .ok v ∧ encode v = .ok t' ∧ ∀ w, decode t' ≠ .ok w := by
  generalize ht : ((List.replicate 16 [0xA2, 0x01, 0x05, 0x05, 0x81]).flatten ++ [0xF6] : Text) = t
  have hlength : t.length < 2 ^ 63 := by simp [← ht]
  have hdeep : (match decode t with
      | .ok v => decide (2 * 16 < v.levels)
      | .error _ => false) = true := by
    subst ht
    decide +kernel
  split at hdeep
  next v hv =>
    have hfits := cbor_documented.decode_fits hv
    have hread := decode_okIff cbor_documented hfits.shown (hfits.sized hlength)
    refine ⟨t, _, v, rfl, hv, (encode_okIff cbor v).ok hfits.shown, fun w hw => ?_⟩
    have hgood := hread.isOk_iff.mp ⟨w, hw⟩
    exact (receivable_iff hfits).mp hgood (Value.lt_levels.mp (of_decide_eq_true hdeep))
  · cases hdeep

end Wire

end BlockEngine
