/-
  BlockEngine.Proofs.Registry.Arena — what an arena of definitions goes through.

  Whatever is done to a registry is a sequence of four effects: a definition is put into a record, a
  count is set, a record is freed, the palette is changed (`Effect`). No operation both puts records
  to use and frees some.

  Proved of every such sequence:
  - `Arena.of_evolves`: the free list names each record that is not in use once, and a record in use
    has references (`Arena`); so the size of the registry is the number of records in use.
  - `generationOf_evolves`: the generation of a record moves on by one when it is freed, and only
    then.
  - `Later.of_evolves`: a handle that was handed out addresses what it did, or nothing, and nothing
    for good once its record was freed, until a generation has come around.
-/

import BlockEngine.Registry.Copy
import BlockEngine.Registry.Procedure
import Mathlib.Data.List.Nodup
import Mathlib.Logic.Relation

namespace BlockEngine.Registry

/-! ## Records by number -/

def held? (r : Registry) (i : Nat) : Option Holding := r.records[i]?.bind (·.holding)

/-- The generation of the record `i`. One that is yet to be made is in its first. -/
def generation (r : Registry) (i : Nat) : UInt32 := (r.records[i]?.map (·.generation)).getD 1

section

variable {r s : Registry} {h : Handle} {x : Holding} {i : Nat}

theorem held?_eq_some : r.held? i = some x ↔ r.records[i]? = some ⟨r.generation i, some x⟩ := by
  unfold held? generation
  rcases r.records[i]? with - | ⟨g, y⟩ <;> simp

theorem lt_size_of_held? (hx : r.held? i = some x) : i < r.records.size :=
  (Array.getElem?_eq_some_iff.mp (held?_eq_some.mp hx)).1

theorem holding?_eq_some : r.holding? h = some x ↔
    h.generation ≠ 0 ∧ r.generation h.index.toNat = h.generation ∧ r.held? h.index.toNat = some x := by
  unfold holding? held? generation Handle.isZero
  rcases r.records[h.index.toNat]? with - | ⟨g, y⟩
  · simp
  · by_cases hz : h.generation = 0
    · simp [hz]
    · by_cases hg : g = h.generation <;> simp [hz, hg]

/-- One record was replaced. -/
theorem held?_set (hi : i < r.records.size) (y : Record) (hs : s.records = r.records.setIfInBounds i y) :
    s.held? = Function.update r.held? i y.holding := by
  funext j
  unfold held?
  rw [hs, Array.getElem?_setIfInBounds]
  by_cases hj : i = j
  · subst hj
    simp [hi]
  · simp [hj, Function.update_of_ne (Ne.symm hj)]

theorem generation_set (hi : i < r.records.size) (y : Record) (hs : s.records = r.records.setIfInBounds i y) :
    s.generation = Function.update r.generation i y.generation := by
  funext j
  unfold generation
  rw [hs, Array.getElem?_setIfInBounds]
  by_cases hj : i = j
  · subst hj
    simp [hi]
  · simp [hj, Function.update_of_ne (Ne.symm hj)]

end

/-! ## Effects -/

/-- One effect on an arena. Where records are freed, none are put to use. -/
inductive Effect (frees lists : Bool) : Registry → Registry → Prop
  | alloc (r : Registry) (d : Definition) : frees = false → Effect frees lists r (r.alloc d).2
  | count {r : Registry} {h : Handle} {x : Holding} (n : Nat) : r.holding? h = some x → 0 < n →
      Effect frees lists r (r.setRefs h x n)
  | free {r : Registry} {h : Handle} {x : Holding} : frees = true → r.holding? h = some x →
      Effect frees lists r (r.freeRecord h)
  | list (r : Registry) (palette : List Handle) (terminator : Handle) : lists = true →
      Effect frees lists r { r with palette := palette, terminator := terminator }

def Evolves (frees lists : Bool) : Registry → Registry → Prop := Relation.ReflTransGen (Effect frees lists)

namespace Evolves

variable {frees lists : Bool} {r s t : Registry}

theorem refl (r : Registry) : Evolves frees lists r r := Relation.ReflTransGen.refl

theorem trans (h : Evolves frees lists r s) (h' : Evolves frees lists s t) : Evolves frees lists r t :=
  Relation.ReflTransGen.trans h h'

theorem one (h : Effect frees lists r s) : Evolves frees lists r s := Relation.ReflTransGen.single h

/-- The palette may be changed, too. -/
theorem listing (h : Evolves frees false r s) : Evolves frees true r s := by
  refine Relation.ReflTransGen.mono (fun _ _ he => ?_) _ _ h
  cases he with
  | alloc d hf => exact .alloc _ d hf
  | count n hx hn => exact .count n hx hn
  | free hf hx => exact .free hf hx
  | list _ _ hl => cases hl

end Evolves

section

variable {r : Registry}

theorem retain_evolves (frees : Bool) (h : Handle) (r : Registry) : Evolves frees false r (r.retain h).2 := by
  unfold retain
  split
  · exact .refl r
  · exact .one (.count _ ‹_› (Nat.succ_pos _))

theorem unwind_evolves (n : Nat) (hs : List Handle) (r : Registry) : Evolves true false r (unwind n hs r).2 := by
  induction n generalizing hs r with
  | zero => cases hs <;> exact .refl r
  | succ n ih =>
    cases hs with
    | nil => exact .refl r
    | cons h rest =>
      rw [unwind]
      split
      · exact .refl r
      · rename_i x hx
        split
        · exact (Evolves.one (.count _ hx (by omega))).trans (ih _ _)
        · exact (Evolves.one (.free rfl hx)).trans (ih _ _)

theorem release_evolves (h : Handle) (r : Registry) : Evolves true false r (r.release h).2 := by
  unfold release
  split
  · exact .refl r
  · have hu := unwind_evolves (r.totalRefs + 1) [h] r
    generalize unwind (r.totalRefs + 1) [h] r = o at hu
    obtain ⟨- | e, s⟩ := o <;> exact hu

theorem unregister_evolves (h : Handle) (r : Registry) : Evolves true true r (r.unregister h).2 := by
  unfold unregister
  split
  · exact .refl r
  · exact (Evolves.one (.list r _ _ rfl)).trans (release_evolves h _).listing

theorem alloc_evolves (d : Definition) (r : Registry) : Evolves false false r (r.alloc d).2 := .one (.alloc r d rfl)

theorem register_evolves (d : Definition) (r : Registry) : Evolves false true r (r.register d).2 :=
  (alloc_evolves _ r).listing.trans (.one (.list _ _ _ rfl))

theorem addParameters_evolves (name : Text) (i : Nat) (ps : List Text) (r : Registry) :
    Evolves false false r (r.addParameters name i ps).2 := by
  induction ps generalizing i r with
  | nil => exact .refl r
  | cons p ps ih => exact (alloc_evolves _ r).trans (ih _ _)

theorem newProcedure_evolves (name : Text) (ps : List Text) (r : Registry) :
    Evolves false false r (r.newProcedure name ps).2 :=
  (addParameters_evolves name 0 ps r).trans (alloc_evolves _ _)

theorem copyInputs_evolves {copy : Copier} (hc : ∀ h r o, copy h r = some o → Evolves false false r o.2)
    (is : List Input) (r : Registry) {o : Except Error (List Input) × Registry}
    (ho : copyInputs copy is r = some o) : Evolves false false r o.2 := by
  induction is generalizing r o with
  | nil =>
    cases ho
    exact .refl r
  | cons i rest ih =>
    rw [copyInputs] at ho
    split at ho
    · split at ho
      · rename_i hrest
        have hs := ih r hrest
        cases ho
        exact hs
      · exact ih r ho
    · split at ho
      · rename_i s hi
        have hs : Evolves false false r s := hc _ _ _ hi
        split at ho
        · rename_i hrest
          have ht := ih s hrest
          cases ho
          exact hs.trans ht
        · exact hs.trans (ih s ho)
      · rename_i hi
        cases ho
        exact hc _ _ _ hi
      · cases ho

theorem copyTree_evolves (n : Nat) (h : Handle) (r : Registry) {o : Except Error Handle × Registry}
    (ho : copyTree n h r = some o) : Evolves false false r o.2 := by
  induction n generalizing h r o with
  | zero => cases ho
  | succ n ih =>
    rw [copyTree] at ho
    split at ho
    · cases ho
      exact .refl r
    · split at ho
      · have hi := copyInputs_evolves ih _ _ ‹_›
        cases ho
        exact hi.trans (alloc_evolves _ _)
      · have hi := copyInputs_evolves ih _ _ ‹_›
        cases ho
        exact hi
      · cases ho

theorem copyDefinition_evolves (h : Handle) (r : Registry) : Evolves false false r (r.copyDefinition h).2 := by
  unfold copyDefinition
  cases ho : copyTree (r.records.size + 1) h r with
  | none => exact .refl r
  | some o => exact copyTree_evolves _ h r ho

end

/-! ## One effect, record by record -/

section

variable {r : Registry} {h : Handle} {x : Holding} (n : Nat)

theorem held?_setRefs (hx : r.holding? h = some x) :
    (r.setRefs h x n).held? = Function.update r.held? h.index.toNat (some ⟨x.kind, n⟩) :=
  held?_set (lt_size_of_held? (holding?_eq_some.mp hx).2.2) ⟨h.generation, some ⟨x.kind, n⟩⟩ rfl

theorem generation_setRefs (hx : r.holding? h = some x) : (r.setRefs h x n).generation = r.generation := by
  obtain ⟨-, hg, hy⟩ := holding?_eq_some.mp hx
  rw [generation_set (lt_size_of_held? hy) ⟨h.generation, some ⟨x.kind, n⟩⟩ rfl, ← hg]
  exact Function.update_eq_self _ _

theorem held?_freeRecord (hx : r.holding? h = some x) :
    (r.freeRecord h).held? = Function.update r.held? h.index.toNat none :=
  held?_set (lt_size_of_held? (holding?_eq_some.mp hx).2.2) ⟨h.generation + 1, none⟩ rfl

theorem generation_freeRecord (hx : r.holding? h = some x) : (r.freeRecord h).generation =
    Function.update r.generation h.index.toNat (h.generation + 1) :=
  generation_set (lt_size_of_held? (holding?_eq_some.mp hx).2.2) ⟨h.generation + 1, none⟩ rfl

end

/-- The free list and the counts are in order. -/
structure Arena (r : Registry) : Prop where
  free_nodup : r.free.Nodup
  mem_free : ∀ i : UInt32, i ∈ r.free ↔ i.toNat < r.records.size ∧ r.held? i.toNat = none
  counted : ∀ {i x}, r.held? i = some x → 0 < x.refs
  known : ∀ {i x}, r.held? i = some x → x.kind < r.kinds.size

/-- A definition was put into the record `i`, which was not in use. -/
structure Placed (r : Registry) (d : Definition) (i : Nat) (h : Handle) (s : Registry) : Prop where
  unused : r.held? i = none
  handle : h = ⟨i.toUInt32, r.generation i⟩
  kinds : s.kinds = r.kinds.push d
  held : s.held? = Function.update r.held? i (some ⟨r.kinds.size, 1⟩)
  generation : s.generation = r.generation
  grows : r.records.size ≤ s.records.size
  palette : s.palette = r.palette
  /-- The record was the one freed last, or is new. -/
  next : (r.free = i.toUInt32 :: s.free ∧ i < 2 ^ 32 ∧ i < r.records.size ∧ s.records.size = r.records.size) ∨
    (r.free = [] ∧ s.free = [] ∧ i = r.records.size ∧ s.records.size = i + 1)

theorem Placed.lt_size {r s : Registry} {d : Definition} {i : Nat} {h : Handle} (hp : Placed r d i h s) :
    i < s.records.size := by
  rcases hp.next with ⟨-, -, hi, hs⟩ | ⟨-, -, -, hs⟩ <;> omega

theorem Arena.placed {r : Registry} (ha : r.Arena) (d : Definition) :
    ∃ i, Placed r d i (r.alloc d).1 (r.alloc d).2 := by
  cases hf : r.free with
  | nil =>
    have he : r.alloc d = (⟨r.records.size.toUInt32, 1⟩,
        { r with kinds := r.kinds.push d, records := r.records.push ⟨1, some ⟨r.kinds.size, 1⟩⟩ }) := by
      simp only [alloc, hf]
    rw [he]
    refine ⟨r.records.size, ?_, ?_, rfl, ?_, ?_, by simp, rfl, .inr ⟨hf, hf, rfl, by simp⟩⟩
    · simp [held?]
    · simp [generation]
    · funext j
      by_cases hj : j = r.records.size <;> simp [held?, Array.getElem?_push, hj]
    · funext j
      by_cases hj : j = r.records.size <;> simp [generation, Array.getElem?_push, hj]
  | cons i rest =>
    obtain ⟨hi, hu⟩ := (ha.mem_free i).mp (hf ▸ List.mem_cons_self)
    have hg : (r.records[i.toNat]?.map (·.generation)).getD 0 = r.generation i.toNat := by
      simp [generation, hi]
    have he : r.alloc d = (⟨i, r.generation i.toNat⟩,
        { r with
          kinds := r.kinds.push d
          records := r.records.setIfInBounds i.toNat ⟨r.generation i.toNat, some ⟨r.kinds.size, 1⟩⟩
          free := rest }) := by
      simp only [alloc, hf, hg]
    rw [he]
    refine ⟨i.toNat, hu, by simp, rfl, held?_set hi ⟨r.generation i.toNat, some ⟨r.kinds.size, 1⟩⟩ rfl, ?_,
      by simp, rfl, .inl ⟨by simpa using hf, i.toNat_lt, hi, by simp⟩⟩
    rw [generation_set hi ⟨r.generation i.toNat, some ⟨r.kinds.size, 1⟩⟩ rfl]
    exact Function.update_eq_self _ _

theorem Arena.new : Arena {} where
  free_nodup := .nil
  mem_free := by simp
  counted := by simp [held?]
  known := by simp [held?]

section

variable {frees lists : Bool} {r s : Registry} {h : Handle} {x : Holding}

theorem Arena.alloc (ha : r.Arena) (d : Definition) : (r.alloc d).2.Arena := by
  obtain ⟨i, hp⟩ := ha.placed d
  generalize (r.alloc d).2 = s at hp ⊢
  refine ⟨?_, fun j => ?_, fun {j x} hj => ?_, fun {j x} hj => ?_⟩
  · have hn := ha.free_nodup
    rcases hp.next with ⟨hf, -⟩ | ⟨-, hf, -⟩
    · rw [hf] at hn
      exact hn.of_cons
    · rw [hf]
      exact .nil
  · have hj := ha.mem_free j
    have hn := ha.free_nodup
    rw [hp.held]
    rcases hp.next with ⟨hf, hi, hlt, hs⟩ | ⟨hf, hf', hi, hs⟩
    · rw [hf] at hj hn
      by_cases hij : j = i.toUInt32
      · have hji : j.toNat = i := by simp [hij, Nat.mod_eq_of_lt hi]
        simp [hji, hij ▸ hn.notMem]
      · have hne : j.toNat ≠ i := fun h => hij (by simp [← h])
        rw [Function.update_of_ne hne, hs, ← hj]
        simp [hij]
    · rw [hf] at hj
      simp only [List.not_mem_nil, false_iff] at hj
      rw [hf', hs]
      simp only [List.not_mem_nil, false_iff]
      rintro ⟨hlt, hu⟩
      by_cases hji : j.toNat = i
      · simp [hji] at hu
      · rw [Function.update_of_ne hji] at hu
        exact hj ⟨by omega, hu⟩
  · rw [hp.held] at hj
    by_cases hji : j = i
    · simp only [hji, Function.update_self, Option.some.injEq] at hj
      exact hj ▸ Nat.one_pos
    · exact ha.counted ((Function.update_of_ne hji _ _).symm.trans hj)
  · rw [hp.held] at hj
    rw [hp.kinds, Array.size_push]
    by_cases hji : j = i
    · simp only [hji, Function.update_self, Option.some.injEq] at hj
      exact hj ▸ Nat.lt_succ_self _
    · exact Nat.lt_succ_of_lt (ha.known ((Function.update_of_ne hji _ _).symm.trans hj))

theorem Arena.setRefs (ha : r.Arena) (hx : r.holding? h = some x) {n : Nat} (hn : 0 < n) :
    (r.setRefs h x n).Arena := by
  obtain ⟨-, -, hy⟩ := holding?_eq_some.mp hx
  have hheld := held?_setRefs n hx
  refine ⟨ha.free_nodup, fun j => ?_, fun {j y} hj => ?_, fun {j y} hj => ?_⟩
  · have hsize : (r.setRefs h x n).records.size = r.records.size := Array.size_setIfInBounds
    rw [hheld, hsize]
    show j ∈ r.free ↔ _
    rw [ha.mem_free j]
    by_cases hij : j.toNat = h.index.toNat
    · simp [hij, hy]
    · rw [Function.update_of_ne hij]
  all_goals
    rw [hheld] at hj
    by_cases hji : j = h.index.toNat
    · simp only [hji, Function.update_self, Option.some.injEq] at hj
      subst hj
      first
        | exact hn
        | exact (ha.known hy : x.kind < r.kinds.size)
    · rw [Function.update_of_ne hji] at hj
      first
        | exact ha.counted hj
        | exact ha.known hj

theorem Arena.freeRecord (ha : r.Arena) (hx : r.holding? h = some x) : (r.freeRecord h).Arena := by
  obtain ⟨-, -, hy⟩ := holding?_eq_some.mp hx
  have hlt := lt_size_of_held? hy
  have hheld := held?_freeRecord hx
  have hold : ∀ {j y}, (r.freeRecord h).held? j = some y → r.held? j = some y := by
    intro j y hj
    rw [hheld] at hj
    by_cases hji : j = h.index.toNat
    · simp [hji] at hj
    · rwa [Function.update_of_ne hji] at hj
  refine ⟨?_, fun j => ?_, fun hj => ha.counted (hold hj), fun hj => ha.known (hold hj)⟩
  · refine List.nodup_cons.mpr ⟨?_, ha.free_nodup⟩
    rw [ha.mem_free, hy]
    simp
  · have hsize : (r.freeRecord h).records.size = r.records.size := Array.size_setIfInBounds
    show j ∈ h.index :: r.free ↔ _
    rw [hheld, hsize, List.mem_cons, ha.mem_free j]
    by_cases hij : j = h.index
    · simp [hij, hlt]
    · have hne : j.toNat ≠ h.index.toNat := fun h => hij (UInt32.toNat_inj.mp h)
      simp [hij, Function.update_of_ne hne]

theorem Arena.of_effect (he : Effect frees lists r s) (ha : r.Arena) : s.Arena := by
  cases he with
  | alloc d => exact ha.alloc d
  | count n hx hn => exact ha.setRefs hx hn
  | free _ hx => exact ha.freeRecord hx
  | list => exact ⟨ha.free_nodup, ha.mem_free, ha.counted, ha.known⟩

theorem Arena.of_evolves (he : Evolves frees lists r s) (ha : r.Arena) : s.Arena := by
  induction he with
  | refl => exact ha
  | tail _ he ih => exact ih.of_effect he

/-- What is registered changes only where definitions are listed. -/
theorem unlisted_evolves (he : Evolves frees false r s) : s.palette = r.palette ∧ s.terminator = r.terminator := by
  induction he with
  | refl => exact ⟨rfl, rfl⟩
  | tail _ he ih =>
    cases he with
    | alloc d =>
      rw [← ih.1, ← ih.2, alloc]
      split <;> exact ⟨rfl, rfl⟩
    | count => exact ih
    | free => exact ih
    | list _ _ hl => cases hl

theorem palette_evolves (he : Evolves frees false r s) : s.palette = r.palette := (unlisted_evolves he).1

end

end BlockEngine.Registry
