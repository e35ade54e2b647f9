/-
  BlockEngine.Proofs.Registry.Copying — what it takes to copy a definition.

  A definition is `Whole` if it is in use and all that it embeds is whole. So nothing embeds itself below a
  whole definition, and no two definitions below it are in the same record: it goes no deeper than there are
  records.

  Proved of any registry, whoever holds what:
  - `Whole.copyDefinition`: a whole definition can be copied.
-/

import BlockEngine.Proofs.Registry.Failing

namespace BlockEngine.Registry

open Finset Relation

variable {r s : Registry} {h k : Handle} {d : Definition}

/-- What is reached in finitely many steps whatever way is taken does not reach itself. -/
theorem not_transGen_self {α : Type} {R : α → α → Prop} {a : α} (ha : Acc (fun b a => R a b) a) : ¬TransGen R a a := by
  induction ha with
  | intro a _ ih =>
    intro hself
    obtain ⟨b, hb, hback⟩ := TransGen.head'_iff.mp hself
    exact ih b hb (TransGen.tail' hback hb)

/-- A definition in use that embeds only such definitions, all the way down. -/
inductive Whole (r : Registry) : Handle → Prop
  | of (h : Handle) (d : Definition) : r.definition? h = some d → (∀ c ∈ d.children, r.Whole c) → r.Whole h

namespace Whole

theorem holding (hw : r.Whole h) : ∃ x, r.holding? h = some x := by
  cases hw with
  | of _ d hd _ =>
    obtain ⟨x, hx, -⟩ := definition?_eq_some.mp hd
    exact ⟨x, hx⟩

theorem embeds (hw : r.Whole h) (hk : r.Embeds h k) : r.Whole k := by
  obtain ⟨d, hd, hk⟩ := hk
  cases hw with
  | of _ d' hd' hc =>
    cases hd.symm.trans hd'
    exact hc k hk

theorem reach (hw : r.Whole h) (hk : ReflTransGen r.Embeds h k) : r.Whole k := by
  induction hk with
  | refl => exact hw
  | tail _ hk ih => exact ih.embeds hk

theorem acc (hw : r.Whole h) : Acc (fun k h => r.Embeds h k) h := by
  induction hw with
  | of h d hd _ ih =>
    refine .intro h fun k hk => ?_
    obtain ⟨d', hd', hk⟩ := hk
    cases hd.symm.trans hd'
    exact ih k hk

theorem of_evolves (ha : r.Arena) (he : Evolves false false r s) (hw : r.Whole h) : s.Whole h := by
  induction hw with
  | of h d hd _ ih => exact .of h d (definition?_grows ha he hd) ih

end Whole

/-! ## How deep a definition goes -/

open Classical in
/-- The number of records that hold what a definition embeds, directly or further down, or itself. -/
noncomputable def depth (r : Registry) (h : Handle) : Nat :=
  #{i ∈ range r.records.size | ∃ k, ReflTransGen r.Embeds h k ∧ k.index.toNat = i}

theorem depth_le (r : Registry) (h : Handle) : r.depth h ≤ r.records.size := by
  classical
  exact (card_filter_le _ _).trans (card_range _).le

/-- Handles in use that address the same record are the same. -/
theorem eq_of_index {x y : Holding} (hx : r.holding? h = some x) (hy : r.holding? k = some y)
    (hi : k.index.toNat = h.index.toNat) : k = h := by
  have hg : k.generation = h.generation := by
    rw [← (holding?_eq_some.mp hx).2.1, ← (holding?_eq_some.mp hy).2.1, hi]
  cases h
  cases k
  simp_all [UInt32.toNat_inj]

theorem Whole.depth_lt (hw : r.Whole h) (hk : r.Embeds h k) : r.depth k < r.depth h := by
  classical
  obtain ⟨x, hx⟩ := hw.holding
  refine card_lt_card ((ssubset_iff_of_subset fun i hi => ?_).mpr ⟨h.index.toNat, ?_, ?_⟩)
  · simp only [mem_filter] at hi ⊢
    obtain ⟨hi, c, hc, hci⟩ := hi
    exact ⟨hi, c, hc.head hk, hci⟩
  · simp only [mem_filter, mem_range]
    exact ⟨lt_size_of_held? (holding?_eq_some.mp hx).2.2, h, .refl, rfl⟩
  · simp only [mem_filter, not_and]
    rintro - ⟨c, hc, hci⟩
    obtain ⟨y, hy⟩ := ((hw.embeds hk).reach hc).holding
    cases eq_of_index hx hy hci
    exact not_transGen_self hw.acc (TransGen.head' hk hc)

/-! ## Copies -/

theorem Whole.copyTree {n : Nat} (ha : r.Arena) (he : Evolves false false r s) (hw : r.Whole h) (hn : r.depth h < n) :
    ∃ h' t, Registry.copyTree n h s = some (.ok h', t) := by
  induction n generalizing h s with
  | zero => omega
  | succ n ih =>
    cases hw with
    | of _ d hd hc =>
      have hw : r.Whole h := .of h d hd hc
      obtain ⟨js, t, hinputs⟩ : ∃ js t, copyInputs (Registry.copyTree n) d.inputs s = some (.ok js, t) := by
        refine copyInputs_ok (fun _ _ _ => copyTree_evolves n _ _) (fun c hmem {t} ht => ?_) he
        have hless := hw.depth_lt ⟨d, hd, hmem⟩
        exact ih ht (hc c hmem) (by omega)
      simp [Registry.copyTree, definition?_grows ha he hd, hinputs]

/-- What is embedded in it included, no handle that a copy meets is stale. -/
theorem Whole.copyDefinition (ha : r.Arena) (hw : r.Whole h) : ∃ h', (r.copyDefinition h).1 = .ok h' := by
  obtain ⟨h', s, ho⟩ := hw.copyTree ha (.refl r) (Nat.lt_succ_of_le (r.depth_le h))
  exact ⟨h', by rw [Registry.copyDefinition, ho, Option.getD_some]⟩

end BlockEngine.Registry
