/-
  BlockEngine.Proofs.Registry.Failing — what an operation that fails leaves behind.

  Dropping a reference and copying a definition go down through what definitions embed, and meet a stale
  handle only on the way. A definition is `Below` another if it is embedded in it, directly or further down.

  Proved of any registry, whoever holds what:
  - `release_error`, `unregister_error`: a handle that is stale itself fails before anything changes.
    Otherwise its last reference was dropped: it is freed, and of the others only definitions below it have
    lost references (`Dropped`).
  - `copyDefinition_error`: likewise, or a handle below it was stale: copies that were made before it was met
    stay, and all else is as it was (`Grown`).
-/

import BlockEngine.Proofs.Registry.References
import Mathlib.Logic.Relation

namespace BlockEngine.Registry

section

variable {r s t : Registry} {h k : Handle} {x : Holding} {d : Definition} {e : Error} {W V : Handle → Prop}

def Embeds (r : Registry) (h k : Handle) : Prop := ∃ d, r.definition? h = some d ∧ k ∈ d.children

/-- A definition is embedded in another, directly or further down. -/
def Below (r : Registry) : Handle → Handle → Prop := Relation.TransGen r.Embeds

theorem embeds_of_holding (hx : r.holding? h = some x) : r.Embeds h k ↔ k ∈ (r.kind x.kind).children := by
  have hd : r.definition? h = some (r.kind x.kind) := definition?_eq_some.mpr ⟨x, hx, rfl⟩
  unfold Embeds
  rw [hd]
  simp

/-! ## References dropped -/

/-- Some definitions lost references or were freed, all of them in `W`. -/
structure Dropped (W : Handle → Prop) (r s : Registry) : Prop where
  kinds : s.kinds = r.kinds
  palette : s.palette = r.palette
  terminator : s.terminator = r.terminator
  held : ∀ {h x}, s.holding? h = some x → ∃ y, r.holding? h = some y ∧ y.kind = x.kind ∧ x.refs ≤ y.refs
  outside : ∀ h, ¬W h → s.holding? h = r.holding? h

theorem Dropped.refl (r : Registry) : Dropped W r r :=
  ⟨rfl, rfl, rfl, fun hx => ⟨_, hx, rfl, Nat.le_refl _⟩, fun _ _ => rfl⟩

theorem Dropped.trans (hrs : Dropped W r s) (hst : Dropped W s t) : Dropped W r t where
  kinds := hst.kinds.trans hrs.kinds
  palette := hst.palette.trans hrs.palette
  terminator := hst.terminator.trans hrs.terminator
  held hx := by
    obtain ⟨y, hy, hkind, hle⟩ := hst.held hx
    obtain ⟨z, hz, hkind', hle'⟩ := hrs.held hy
    exact ⟨z, hz, hkind'.trans hkind, Nat.le_trans hle hle'⟩
  outside h hh := (hst.outside h hh).trans (hrs.outside h hh)

theorem Dropped.mono (hd : Dropped W r s) (hWV : ∀ h, W h → V h) : Dropped V r s :=
  ⟨hd.kinds, hd.palette, hd.terminator, hd.held, fun h hh => hd.outside h fun hw => hh (hWV h hw)⟩

theorem dropped_setRefs (hx : r.holding? h = some x) (hh : W h) {n : Nat} (hn : n ≤ x.refs) :
    Dropped W r (r.setRefs h x n) := by
  refine ⟨rfl, rfl, rfl, fun {h' y} hy => ?_, fun h' hh' => ?_⟩
  · rw [holding?_setRefs hx] at hy
    by_cases heq : h' = h
    · rw [if_pos heq] at hy
      cases hy
      exact ⟨x, heq ▸ hx, rfl, hn⟩
    · rw [if_neg heq] at hy
      exact ⟨y, hy, rfl, Nat.le_refl _⟩
  · rw [holding?_setRefs hx, if_neg]
    rintro rfl
    exact hh' hh

theorem dropped_freeRecord (hx : r.holding? h = some x) (hh : W h) : Dropped W r (r.freeRecord h) := by
  refine ⟨rfl, rfl, rfl, fun {h' y} hy => ?_, fun h' hh' => ?_⟩
  · rw [holding?_freeRecord hx] at hy
    by_cases heq : h' = h
    · rw [if_pos heq] at hy
      cases hy
    · rw [if_neg heq] at hy
      exact ⟨y, hy, rfl, Nat.le_refl _⟩
  · rw [holding?_freeRecord hx, if_neg]
    rintro rfl
    exact hh' hh

/-- What is left embeds what it did. -/
theorem Dropped.embeds (hd : Dropped W r s) (he : s.Embeds h k) : r.Embeds h k := by
  obtain ⟨d, hdef, hk⟩ := he
  obtain ⟨x, hx, rfl⟩ := definition?_eq_some.mp hdef
  obtain ⟨y, hy, hkind, -⟩ := hd.held hx
  rw [embeds_of_holding hy, hkind]
  unfold kind at hk ⊢
  rwa [hd.kinds] at hk

/-- Dropping references from handles in `W` stays in `W` if that is closed under embedding, and ends at a
    handle in `W` if it fails. -/
theorem unwind_drops (n : Nat) {hs : List Handle} (hclosed : ∀ h k, W h → r.Embeds h k → W k)
    (hW : ∀ h ∈ hs, W h) :
    Dropped W r (unwind n hs r).2 ∧ ∀ e, (unwind n hs r).1 = some e → ∃ k, W k ∧ e = .stale k := by
  induction n generalizing hs r with
  | zero =>
    cases hs with
    | nil => exact ⟨.refl r, fun e he => (by cases he)⟩
    | cons h rest => exact ⟨.refl r, fun e he => (by cases he)⟩
  | succ n ih =>
    cases hs with
    | nil => exact ⟨.refl r, fun e he => (by cases he)⟩
    | cons h rest =>
      have hh := hW h List.mem_cons_self
      have hrest : ∀ k ∈ rest, W k := fun k hk => hW k (List.mem_cons_of_mem _ hk)
      rw [unwind]
      cases hx : r.holding? h with
      | none =>
        refine ⟨.refl r, fun e he => ⟨h, hh, ?_⟩⟩
        cases he
        rfl
      | some x =>
        dsimp only
        by_cases hmore : 1 < x.refs
        · rw [if_pos hmore]
          have hdrop : Dropped W r (r.setRefs h x (x.refs - 1)) := dropped_setRefs hx hh (Nat.sub_le _ _)
          obtain ⟨hdropped, herror⟩ := ih (fun h k hw he => hclosed h k hw (hdrop.embeds he)) hrest
          exact ⟨hdrop.trans hdropped, herror⟩
        · rw [if_neg hmore]
          have hdrop : Dropped W r (r.freeRecord h) := dropped_freeRecord hx hh
          have hchildren : ∀ k ∈ (r.kind x.kind).children ++ rest, W k := by
            intro k hk
            rcases List.mem_append.mp hk with hk | hk
            · exact hclosed h k hh ((embeds_of_holding hx).mpr hk)
            · exact hrest k hk
          obtain ⟨hdropped, herror⟩ := ih (fun h k hw he => hclosed h k hw (hdrop.embeds he)) hchildren
          exact ⟨hdrop.trans hdropped, herror⟩

/-- The last reference to a definition was dropped, and dropping those that it held ended at `k`. -/
structure Torn (h k : Handle) (r s : Registry) : Prop where
  last : r.refCount h = 1
  below : r.Below h k
  freed : s.holding? h = none
  dropped : Dropped (fun h' => h' = h ∨ r.Below h h') r s

theorem release_torn (ha : r.Arena) (hx : r.holding? h = some x) (he : r.release h = (.error e, s)) :
    ∃ k, e = .stale k ∧ Torn h k r s := by
  have hpos := ha.counted (holding?_eq_some.mp hx).2.2
  rw [release, hx] at he
  dsimp only at he
  rw [unwind, hx] at he
  dsimp only at he
  by_cases hmore : 1 < x.refs
  · rw [if_pos hmore] at he
    cases hn : r.totalRefs <;> rw [hn, unwind] at he <;> cases he
  · rw [if_neg hmore, List.append_nil] at he
    have hdrop : Dropped (fun h' => h' = h ∨ r.Below h h') r (r.freeRecord h) := dropped_freeRecord hx (.inl rfl)
    obtain ⟨hdropped, herror⟩ := unwind_drops (W := r.Below h) (r := r.freeRecord h) r.totalRefs
      (fun h' k hw hk => hw.tail (hdrop.embeds hk))
      (fun k hk => .single ((embeds_of_holding hx).mpr hk))
    generalize unwind r.totalRefs (r.kind x.kind).children (r.freeRecord h) = o at he hdropped herror
    obtain ⟨_ | e', t⟩ := o
    · cases he
    · cases he
      obtain ⟨k, hk, rfl⟩ := herror _ rfl
      refine ⟨k, rfl, ?_, hk, ?_, hdrop.trans (hdropped.mono fun _ => .inr)⟩
      · rw [refCount_of_holding hx]
        omega
      · refine Option.eq_none_iff_forall_ne_some.mpr fun y hy => ?_
        obtain ⟨z, hz, -⟩ := hdropped.held hy
        rw [holding?_freeRecord hx, if_pos rfl] at hz
        cases hz

theorem release_error (ha : r.Arena) (he : r.release h = (.error e, s)) :
    (e = .stale h ∧ s = r) ∨ ∃ k, e = .stale k ∧ Torn h k r s := by
  cases hx : r.holding? h with
  | none =>
    rw [release, hx] at he
    cases he
    exact .inl ⟨rfl, rfl⟩
  | some x => exact .inr (release_torn ha hx he)

def unlisted (h : Handle) (r : Registry) : Registry :=
  { r with palette := r.palette.erase h, terminator := if h = r.terminator then .zero else r.terminator }

theorem unregister_error (ha : r.Arena) (he : r.unregister h = (.error e, s)) :
    (e = .stale h ∧ s = r) ∨ ∃ k, e = .stale k ∧ Torn h k (r.unlisted h) s := by
  cases hx : r.holding? h with
  | none =>
    rw [unregister, hx] at he
    cases he
    exact .inl ⟨rfl, rfl⟩
  | some x =>
    rw [unregister, hx] at he
    have ha' : (r.unlisted h).Arena := ⟨ha.free_nodup, ha.mem_free, ha.counted, ha.known⟩
    exact .inr (release_torn (r := r.unlisted h) ha' hx he)

/-! ## Definitions added -/

/-- Some definitions were put to use, and all others are as they were. -/
structure Grown (r s : Registry) : Prop where
  evolves : Evolves false false r s
  held : ∀ {h x}, r.holding? h = some x → s.holding? h = some x
  size : r.size ≤ s.size

theorem Grown.refl (r : Registry) : Grown r r := ⟨.refl r, id, Nat.le_refl _⟩

theorem Grown.trans (hrs : Grown r s) (hst : Grown s t) : Grown r t :=
  ⟨hrs.evolves.trans hst.evolves, fun hx => hst.held (hrs.held hx), Nat.le_trans hrs.size hst.size⟩

theorem Grown.alloc (ha : r.Arena) (d : Definition) : Grown r (r.alloc d).2 := by
  obtain ⟨i, hp⟩ := ha.placed d
  refine ⟨r.alloc_evolves d, fun {h x} hx => ?_, ?_⟩
  · obtain ⟨hz, hg, hy⟩ := holding?_eq_some.mp hx
    have hne : h.index.toNat ≠ i := by
      rintro rfl
      rw [hp.unused] at hy
      cases hy
    refine holding?_eq_some.mpr ⟨hz, by rw [hp.generation, hg], ?_⟩
    rw [hp.held, Function.update_of_ne hne, hy]
  · unfold Registry.size
    rcases hp.next with ⟨hfree, -, -, hsize⟩ | ⟨hfree, hfree', hi, hsize⟩
    · rw [hfree, List.length_cons, hsize]
      omega
    · rw [hfree, hfree', hsize]
      omega

theorem Grown.definition? (ha : r.Arena) (hg : Grown r s) (hx : r.holding? h = some x) :
    s.definition? h = r.definition? h := by
  have hd : r.definition? h = some (r.kind x.kind) := definition?_eq_some.mpr ⟨x, hx, rfl⟩
  rw [hd]
  exact definition?_grows ha hg.evolves hd

/-- Copying inputs grows the registry, and fails at a handle that is embedded or below one that is. -/
theorem copyInputs_grows {copy : Copier} {is : List Input} {o : Except Error (List Input) × Registry}
    (hcopy : ∀ {c t o}, Arena t → copy c t = some o →
      Grown t o.2 ∧ ∀ e, o.1 = .error e → ∃ k, e = .stale k ∧ o.2.holding? k = none ∧ (k = c ∨ o.2.Below c k))
    (ha : r.Arena) (ho : copyInputs copy is r = some o) :
    Grown r o.2 ∧ ∀ e, o.1 = .error e →
      ∃ c ∈ embedded is, ∃ k, e = .stale k ∧ o.2.holding? k = none ∧ (k = c ∨ o.2.Below c k) := by
  induction is generalizing r o with
  | nil =>
    cases ho
    exact ⟨.refl r, fun e he => (by cases he)⟩
  | cons i rest ih =>
    have hsub : ∀ {c}, c ∈ embedded rest → c ∈ embedded (i :: rest) := by
      intro c hc
      unfold embedded at hc ⊢
      rw [List.map_cons, List.filter_cons]
      split
      · exact List.mem_cons_of_mem _ hc
      · exact hc
    rw [copyInputs] at ho
    by_cases hz : i.child.isZero
    · rw [if_pos hz] at ho
      cases hrest : copyInputs copy rest r with
      | none =>
        rw [hrest] at ho
        cases ho
      | some u =>
        obtain ⟨hgrown, herror⟩ := ih ha hrest
        rw [hrest] at ho
        obtain ⟨_ | js, t⟩ := u
        · cases ho
          refine ⟨hgrown, fun e he => ?_⟩
          obtain ⟨c, hc, hk⟩ := herror e he
          exact ⟨c, hsub hc, hk⟩
        · cases ho
          exact ⟨hgrown, fun e he => (by cases he)⟩
    · rw [if_neg hz] at ho
      cases hchild : copy i.child r with
      | none =>
        rw [hchild] at ho
        cases ho
      | some u =>
        obtain ⟨hgrown, herror⟩ := hcopy ha hchild
        rw [hchild] at ho
        have hmem : i.child ∈ embedded (i :: rest) := by simp [embedded, hz]
        obtain ⟨e' | c, t⟩ := u
        · cases ho
          exact ⟨hgrown, fun e he => (by cases he; exact ⟨i.child, hmem, herror _ rfl⟩)⟩
        · dsimp only at ho hgrown
          have hat := ha.of_evolves hgrown.evolves
          cases hrest : copyInputs copy rest t with
          | none =>
            rw [hrest] at ho
            cases ho
          | some v =>
            obtain ⟨hgrown', herror'⟩ := ih hat hrest
            rw [hrest] at ho
            obtain ⟨_ | js, w⟩ := v
            · cases ho
              refine ⟨hgrown.trans hgrown', fun e he => ?_⟩
              obtain ⟨c, hc, hk⟩ := herror' e he
              exact ⟨c, hsub hc, hk⟩
            · cases ho
              exact ⟨hgrown.trans hgrown', fun e he => (by cases he)⟩

/-- Copying grows the registry, and fails at a stale handle that is the one copied or below it. -/
theorem copyTree_grows {n : Nat} {o : Except Error Handle × Registry} (ha : r.Arena) (ho : copyTree n h r = some o) :
    Grown r o.2 ∧ ∀ e, o.1 = .error e → ∃ k, e = .stale k ∧ o.2.holding? k = none ∧ (k = h ∨ o.2.Below h k) := by
  induction n generalizing h r o with
  | zero => cases ho
  | succ n ih =>
    rw [copyTree] at ho
    cases hd : r.definition? h with
    | none =>
      rw [hd] at ho
      cases ho
      refine ⟨.refl r, fun e he => ?_⟩
      cases he
      refine ⟨h, rfl, ?_, .inl rfl⟩
      simpa [definition?, kind?] using hd
    | some d =>
      rw [hd] at ho
      dsimp only at ho
      cases hinputs : copyInputs (copyTree n) d.inputs r with
      | none =>
        rw [hinputs] at ho
        cases ho
      | some u =>
        obtain ⟨hgrown, herror⟩ := copyInputs_grows ih ha hinputs
        rw [hinputs] at ho
        obtain ⟨e' | js, t⟩ := u
        · cases ho
          refine ⟨hgrown, fun e he => ?_⟩
          cases he
          obtain ⟨c, hc, k, hk, hstale, hbelow⟩ := herror _ rfl
          have hembeds : t.Embeds h c := ⟨d, definition?_grows ha hgrown.evolves hd, hc⟩
          refine ⟨k, hk, hstale, .inr ?_⟩
          rcases hbelow with rfl | hbelow
          · exact .single hembeds
          · exact .head hembeds hbelow
        · cases ho
          exact ⟨hgrown.trans (.alloc (ha.of_evolves hgrown.evolves) _), fun e he => (by cases he)⟩

/-- What is stale below a definition in use was so before, or something above it was. -/
theorem Grown.stale_below (ha : r.Arena) (hg : Grown r s) (hbelow : s.Below h k) (hstale : s.holding? k = none)
    (hx : r.holding? h = some x) : ∃ k, r.Below h k ∧ r.holding? k = none := by
  induction hbelow using Relation.TransGen.head_induction_on generalizing x with
  | single hembeds =>
    rename_i h
    obtain ⟨d, hd, hk⟩ := hembeds
    rw [hg.definition? ha hx] at hd
    refine ⟨k, .single ⟨d, hd, hk⟩, Option.eq_none_iff_forall_ne_some.mpr fun y hy => ?_⟩
    rw [hg.held hy] at hstale
    cases hstale
  | head hembeds _ ih =>
    rename_i h c _
    obtain ⟨d, hd, hc⟩ := hembeds
    rw [hg.definition? ha hx] at hd
    have hembeds : r.Embeds h c := ⟨d, hd, hc⟩
    cases hy : r.holding? c with
    | none => exact ⟨c, .single hembeds, hy⟩
    | some y =>
      obtain ⟨k, hk, hnone⟩ := ih hy
      exact ⟨k, .head hembeds hk, hnone⟩

theorem copyDefinition_error (ha : r.Arena) (he : r.copyDefinition h = (.error e, s)) :
    (e = .stale h ∧ s = r) ∨
      (Grown r s ∧ (∃ k, e = .stale k ∧ s.holding? k = none) ∧ ∃ k, r.Below h k ∧ r.holding? k = none) := by
  cases hx : r.holding? h with
  | none =>
    rw [copyDefinition_stale hx] at he
    cases he
    exact .inl ⟨rfl, rfl⟩
  | some x =>
    unfold copyDefinition at he
    cases ho : copyTree (r.records.size + 1) h r with
    | none =>
      rw [ho] at he
      cases he
      exact .inl ⟨rfl, rfl⟩
    | some o =>
      obtain ⟨hgrown, herror⟩ := copyTree_grows ha ho
      rw [ho, Option.getD_some] at he
      subst he
      obtain ⟨k, rfl, hstale, rfl | hbelow⟩ := herror e rfl
      · rw [hgrown.held hx] at hstale
        cases hstale
      · exact .inr ⟨hgrown, ⟨k, rfl, hstale⟩, hgrown.stale_below ha hbelow hstale hx⟩

end

end BlockEngine.Registry
