/-
  BlockEngine.Proofs.Program.Counts — reference counts are exact.

  Proved of every sequence of fair calls, as long as handles have not run out (`Program.Fits`):
  - `reference_counts_exact`: every count is the number of references from the palette, from blocks, from
    slots, from definitions in use and from the caller. A definition is there as long as there are any, what
    the caller holds is never stale, and the palette never names a freed record.
-/

import BlockEngine.Proofs.Program.Accounts

namespace BlockEngine

/-! ## The palette -/

namespace Registry

variable {r : Registry} {h : Handle} {d : Definition}

theorem atEntry_eq (hd : r.definition? h = some d) : r.atEntry h = .ok d := by
  obtain ⟨x, hx, rfl⟩ := definition?_eq_some.mp hd
  have hheld := (holding?_eq_some.mp hx).2.2
  unfold held? at hheld
  unfold atEntry
  obtain ⟨⟨g, y⟩, hrec, rfl⟩ := Option.bind_eq_some_iff.mp hheld
  rw [hrec]

/-- A test that always answers filters. -/
theorem filterM_eq_ok {α ε : Type} {f : α → Except ε Bool} {g : α → Bool} {as : List α}
    (hf : ∀ a ∈ as, f a = .ok (g a)) : as.filterM f = .ok (as.filter g) := by
  have haux : ∀ kept, as.filterAuxM f kept = .ok ((as.filter g).reverse ++ kept) := by
    induction as with
    | nil => exact fun kept => rfl
    | cons a as ih =>
      intro kept
      have hrec := ih (fun b hb => hf b (List.mem_cons_of_mem _ hb)) (bif g a then a :: kept else kept)
      rw [List.filterAuxM, hf a List.mem_cons_self]
      refine hrec.trans ?_
      cases hg : g a <;> simp [hg]
  rw [List.filterM, haux []]
  simp [bind, Except.bind, pure, Except.pure]

/-- A palette whose handles all address a definition is searched up to the first with the id. -/
theorem lookup_eq (hr : ∀ h ∈ r.palette, (r.definition? h).isSome) (id : Text) :
    r.lookup id = .ok (r.palette.find? fun h => (r.definition? h).any (·.id = id)) := by
  unfold lookup
  generalize r.palette = hs at hr
  induction hs with
  | nil => rfl
  | cons h hs ih =>
    obtain ⟨d, hd⟩ := Option.isSome_iff_exists.mp (hr h List.mem_cons_self)
    have ih := ih fun h hh => hr h (List.mem_cons_of_mem _ hh)
    rw [lookup.find, atEntry_eq hd, List.find?_cons, hd]
    by_cases hid : d.id = id
    · simp [bind, Except.bind, hid]
    · simpa [bind, Except.bind, hid] using ih

/-- A palette whose handles all address a definition is offered but for the hidden ones. -/
theorem visible_eq (hr : ∀ h ∈ r.palette, (r.definition? h).isSome) :
    r.visible = .ok (r.palette.filter fun h => (r.definition? h).any (!·.hidden)) := by
  refine filterM_eq_ok fun h hh => ?_
  obtain ⟨d, hd⟩ := Option.isSome_iff_exists.mp (hr h hh)
  rw [atEntry_eq hd, hd]
  rfl

end Registry

/-! ## Sequences of calls -/

namespace Program

def ledger : Program → Ledger → List Call → Ledger
  | _, l, [] => l
  | p, l, c :: rest => ledger (c.edit.run p).2 (c.settle p l) rest

def FairRun : Program → Ledger → List Call → Prop
  | _, _, [] => True
  | p, l, c :: rest => c.Fair p l ∧ FairRun (c.edit.run p).2 (c.settle p l) rest

theorem ledger_append (p : Program) (l : Ledger) (a b : List Call) :
    p.ledger l (a ++ b) = (p.after a).ledger (p.ledger l a) b := by
  induction a generalizing p l with
  | nil => rfl
  | cons c a ih => exact ih _ _

theorem fairRun_append (p : Program) (l : Ledger) (a b : List Call) :
    p.FairRun l (a ++ b) ↔ p.FairRun l a ∧ (p.after a).FairRun (p.ledger l a) b := by
  induction a generalizing p l with
  | nil => simp [FairRun, after, ledger]
  | cons c a ih => simp only [List.cons_append, FairRun, ih, and_assoc, after_cons, ledger]

theorem sound_after {n : Nat} {calls : List Call} (hfits : (start n).Fits calls) (hfair : (start n).FairRun 0 calls) :
    ((start n).after calls).Sound ((start n).ledger 0 calls) := by
  induction calls using List.reverseRecOn with
  | nil => exact .start n
  | append_singleton calls c ih =>
    rw [fairRun_append] at hfair
    have hroom : ((start n).after (calls ++ [c])).Roomy := fun r => roomy_after hfits r
    rw [after_append] at hroom ⊢
    rw [ledger_append]
    exact Call.sound_edit (ih hfits.of_append hfair.1) (typed_after (typed_start n) calls) hfair.2.1 hroom

end Program

/-! ## Counting references -/

namespace Program

variable {p : Program} {l : Ledger} {r : RegistryId} {h : Handle}

def blocksOf (p : Program) (r : RegistryId) (h : Handle) : Nat :=
  p.blocks.toList.countP fun x => x.registry = r ∧ x.handle = h

def slotsHolding (p : Program) (r : RegistryId) (h : Handle) : Nat :=
  ((p.blocks.toList.filter (·.registry = r)).flatMap fun x => definitions x.slots).count h

theorem sum_refsOf (p : Program) (r : RegistryId) (h : Handle) :
    ∑ b ∈ Finset.range p.blocks.size, p.refsOf r h b = p.blocksOf r h + p.slotsHolding r h := by
  have hmap : (List.range p.blocks.size).map (p.refsOf r h) = p.blocks.toList.map fun x => x.refs r h := by
    apply List.ext_getElem?
    intro b
    by_cases hb : b < p.blocks.size <;> simp [refsOf, hb]
  have hsum : ∑ b ∈ Finset.range p.blocks.size, p.refsOf r h b = (p.blocks.toList.map fun x => x.refs r h).sum := by
    rw [← hmap]
    rfl
  rw [hsum, blocksOf, slotsHolding]
  induction p.blocks.toList with
  | nil => rfl
  | cons x xs ih =>
    rw [List.map_cons, List.sum_cons, ih]
    by_cases hr : x.registry = r
    · subst hr
      by_cases hh : x.handle = h <;> simp [Block.refs, refs, hh] <;> omega
    · simp [Block.refs, refs, hr, Ne.symm hr]

/-- All references to a definition that a program and a caller have. -/
def references (p : Program) (held : Ledger) (r : RegistryId) (h : Handle) : Nat :=
  (if h ∈ (p.registry r).palette then 1 else 0) + p.blocksOf r h + p.slotsHolding r h + (p.registry r).embeds h +
    held r h

theorem Sound.refCount (hp : p.Sound l) (hz : h.generation ≠ 0) :
    (p.registry r).refCount h = p.references l r h := by
  rw [(hp.exact r).counts h hz, outside, Finset.sdiff_empty, sum_refsOf, (hp.palette r).count, references]
  omega

theorem Sound.definition_iff (hp : p.Sound l) (hz : h.generation ≠ 0) :
    ((p.registry r).definition? h).isSome ↔ 0 < p.references l r h := by
  rw [← hp.refCount hz, Registry.definition?, Registry.kind?, Registry.refCount]
  cases hx : (p.registry r).holding? h with
  | none => simp
  | some x => simpa using (hp.exact r).arena.counted (Registry.holding?_eq_some.mp hx).2.2

/-- What is in the palette has a definition. -/
theorem Sound.palette_defined (hp : p.Sound l) (hh : h ∈ (p.registry r).palette) :
    ((p.registry r).definition? h).isSome := by
  rw [hp.definition_iff (hp.listed r h hh), references, if_pos hh]
  omega

end Program

namespace Call

open Program

variable {p : Program} {l : Ledger} {r : RegistryId} {h : Handle} {c : Call}

theorem returned_nonzero (hp : p.Sound l) (hc : c.registry? = some r) (hr : r < p.registries.size)
    (hroom : (c.edit.run p).2.Roomy) (hh : h ∈ c.returned p) : h.generation ≠ 0 := by
  unfold returned at hh
  split at hh
  · rename_i h' hok
    cases List.mem_singleton.mp hh
    obtain ⟨k, -, hk⟩ := (answers_edit hc hr hok).addressed (hp.exact r).arena (hroom r)
    obtain ⟨x, hx, -⟩ := Registry.kind?_eq_some.mp hk
    exact (Registry.holding?_eq_some.mp hx).1
  · cases hh

/-- The caller is never handed a zero handle. -/
theorem settle_nonzero (hp : p.Sound l) (hc : c.Fair p l) (hroom : (c.edit.run p).2.Roomy)
    (hl : ∀ r h, 0 < l r h → h.generation ≠ 0) : ∀ r h, 0 < c.settle p l r h → h.generation ≠ 0 := by
  intro r' h' hpos
  have hsub : ∀ r hs, 0 < (l - refs r hs) r' h' → h'.generation ≠ 0 := fun r hs hlt =>
    hl r' h' (hlt.trans_le (Nat.sub_le _ _))
  have hadd : ∀ (m : Ledger) r hs, (0 < m r' h' → h'.generation ≠ 0) → (∀ h ∈ hs, h.generation ≠ 0) →
      0 < (m + refs r hs) r' h' → h'.generation ≠ 0 := by
    intro m r hs hm hhs hlt
    rcases Nat.add_pos_iff_pos_or_pos.mp hlt with hlt | hlt
    · exact hm hlt
    · unfold refs at hlt
      split at hlt
      · exact hhs h' (List.count_pos_iff.mp hlt)
      · exact absurd hlt (Nat.lt_irrefl 0)
  cases c with
  | register r d => exact hsub _ _ hpos
  | newCustom r d => exact hadd _ _ _ (hsub _ _) (fun h => returned_nonzero hp rfl hc.1 hroom) hpos
  | newProcedure r name ps => exact hadd _ _ _ (hl r' h') (fun h => returned_nonzero hp rfl hc hroom) hpos
  | copyDefinition r h =>
    refine hadd _ _ _ (hl r' h') (fun h'' hh => ?_) hpos
    by_cases hr : r < p.registries.size
    · exact returned_nonzero hp rfl hr hroom hh
    · have hnone : (p.registry r).holding? h = none := by
        rw [registry_of_le (Nat.not_lt.mp hr)]
        simp [Registry.holding?]
      have hrun : ((copyDefinition r h).edit.run p).1 = .ok ((p.registry r).copyDefinition h).1.toOption := rfl
      rw [returned, hrun, Registry.copyDefinition_stale hnone] at hh
      cases hh
  | retain r h =>
    rw [settle] at hpos
    cases hx : (p.registry r).holding? h with
    | none => exact hl r' h' (by simpa [Registry.retain, hx] using hpos)
    | some x =>
      simp only [Registry.retain, hx] at hpos
      refine hadd _ _ _ (hl r' h') (fun h'' hh => ?_) hpos
      cases List.mem_singleton.mp hh
      exact (Registry.holding?_eq_some.mp hx).1
  | release r h => exact hsub _ _ hpos
  | setDefinition b i h =>
    rw [settle] at hpos
    generalize ((setDefinition b i h).edit.run p).1 = o at hpos
    generalize p.blocks[b]? = x at hpos
    rcases o with _ | _
    · exact hl r' h' hpos
    · cases x with
      | none => exact hl r' h' hpos
      | some x => exact hsub _ _ hpos
  | _ => exact hl r' h' hpos

end Call

namespace Program

variable {n : Nat} {calls : List Call}

theorem held_nonzero (hfits : (start n).Fits calls) (hfair : (start n).FairRun 0 calls) (r : RegistryId) (h : Handle)
    (hh : 0 < (start n).ledger 0 calls r h) : h.generation ≠ 0 := by
  induction calls using List.reverseRecOn generalizing r h with
  | nil => exact absurd hh (Nat.lt_irrefl 0)
  | append_singleton calls c ih =>
    rw [fairRun_append] at hfair
    have hroom : ((start n).after (calls ++ [c])).Roomy := fun r => roomy_after hfits r
    rw [after_append] at hroom
    rw [ledger_append] at hh
    exact Call.settle_nonzero (sound_after hfits.of_append hfair.1) hfair.2.1 hroom
      (fun r h => ih hfits.of_append hfair.1 r h) r h hh

end Program

open Program

/-- Over every sequence of fair calls, reference counts are exact. In every registry,
    - a count is the number of references from the palette, blocks, slots, definitions in use and the caller;
    - a handle addresses a definition exactly as long as there are any;
    - what the caller holds can be dropped and copied;
    - the palette is searched and offered without meeting a freed record. -/
theorem reference_counts_exact (n : Nat) (calls : List Call) (hfits : (start n).Fits calls)
    (hfair : (start n).FairRun 0 calls) (r : RegistryId) :
    let p := (start n).after calls
    let held := (start n).ledger 0 calls
    let q := p.registry r
    (∀ h, h.isZero = false → q.refCount h = p.references held r h ∧
      ((q.definition? h).isSome ↔ 0 < p.references held r h)) ∧
    (∀ h, 0 < held r h → h.isZero = false ∧ (∃ k, (q.release h).1 = .ok k) ∧ ∃ h', (q.copyDefinition h).1 = .ok h') ∧
    (∀ id, q.lookup id = .ok (q.palette.find? fun h => (q.definition? h).any (·.id = id))) ∧
    q.visible = .ok (q.palette.filter fun h => (q.definition? h).any (!·.hidden)) := by
  intro p held q
  have hp : p.Sound held := sound_after hfits hfair
  have hdefined : ∀ h ∈ q.palette, (q.definition? h).isSome := fun h => hp.palette_defined
  refine ⟨fun h hz => ?_, fun h hh => ?_, Registry.lookup_eq hdefined, Registry.visible_eq hdefined⟩
  · have hz' : h.generation ≠ 0 := by simpa [Handle.isZero] using hz
    exact ⟨hp.refCount hz', hp.definition_iff hz'⟩
  · have hz := held_nonzero hfits hfair r h hh
    obtain ⟨x, hx⟩ := hp.exact.holding hz hh
    have hle := sub_refs_add (count_singleton_le hh)
    have hreg := hle.symm ▸ hp.exact r
    rw [outside_add] at hreg
    obtain ⟨k, hk, -⟩ := hreg.release hz
    obtain ⟨h', hh', -⟩ := (hp.exact r).copyDefinition hx
    exact ⟨by simpa [Handle.isZero] using hz, ⟨k, hk⟩, h', hh'⟩

/-- A block with nothing nested in it. -/
theorem Program.Live.of_leaf {p : Program} {b : BlockId} {x : Block} (hx : p.blocks[b]? = some x)
    (hz : x.handle.isZero = false) (hleaf : ∀ s ∈ x.slots, ∀ c, s.payload ≠ .block c) : p.Live b := by
  intro c hc
  cases hc.cases_head with
  | inl h => exact h ▸ ⟨x, hx, hz⟩
  | inr h =>
    obtain ⟨d, ⟨y, hy, s, hs, hd⟩, -⟩ := h
    cases hx.symm.trans hy
    exact absurd hd (hleaf s hs d)

/-- A definition is embedded in another, of which there are then two blocks and no other reference. -/
def embedding : List Call :=
  [.newCustom 0 { id := [] }, .newCustom 0 { id := [], inputs := [{ type := .definition, child := ⟨0, 1⟩ }] },
    .newBlock 0 ⟨1, 1⟩, .release 0 ⟨1, 1⟩, .copyBlock 0 none]

theorem embedding_fits : (start 1).Fits embedding := fits_of_length (by decide) (by decide)

theorem embedding_fair : (start 1).FairRun 0 embedding := by
  refine ⟨⟨by decide, fun h => by simp [Definition.children]⟩, ⟨by decide, ?_⟩, nofun, ?_, ?_, trivial⟩
  · exact count_singleton_le (by decide)
  · show 0 < _
    decide
  · intro b hb
    cases List.mem_singleton.mp hb
    refine .of_leaf rfl rfl ?_
    rintro s hs c hc
    cases List.mem_singleton.mp hs
    cases hc

theorem reference_counts_exact_embedding :
    (start 1).Fits embedding ∧ (start 1).FairRun 0 embedding ∧
      (((start 1).after embedding).registry 0).refCount ⟨1, 1⟩ =
        ((start 1).after embedding).references ((start 1).ledger 0 embedding) 0 ⟨1, 1⟩ ∧
      (((start 1).after embedding).registry 0).refCount ⟨1, 1⟩ = 2 ∧
      (((start 1).after embedding).registry 0).refCount ⟨0, 1⟩ = 1 :=
  ⟨embedding_fits, embedding_fair, ((reference_counts_exact 1 embedding embedding_fits embedding_fair 0).1 ⟨1, 1⟩ rfl).1,
    by decide, by decide⟩

end BlockEngine
