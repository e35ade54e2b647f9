/-
  BlockEngine.Proofs.Program.Copying — new blocks and copies.

  Proved of an exact program, as long as there is room for the definitions that are put to use:
  - `newBlock_yields`: a new block has references to its kind and to the definitions in its slots.
  - `copyTree_yields`: a block whose parts are all live is copied whole: no handle in it is stale, and
    it is no deeper than there are blocks.
-/

import BlockEngine.Proofs.Program.References
import BlockEngine.Proofs.Program.Slots

namespace BlockEngine

open Program

/-! ## Edits that succeed -/

/-- Handles have not run out in any registry. -/
def Program.Roomy (p : Program) : Prop := ∀ r, (p.registry r).Roomy

theorem Program.Roomy.of_evolves {frees lists : Bool} {p q : Program} (hq : q.Roomy) (ha : ∀ r, (p.registry r).Arena)
    (he : Program.Evolves frees lists p q) : p.Roomy := fun r => (hq r).of_evolves (ha r) (he.registry r)

/-- The block and all that it contains are live. -/
def Program.Live (p : Program) (b : BlockId) : Prop :=
  ∀ c, p.Reaches b c → ∃ x, p.blocks[c]? = some x ∧ x.handle.isZero = false

namespace Edit

variable {α β : Type} {p q : Program} {l : Ledger}

/-- If there is room for what it puts to use, the edit succeeds and `Q` holds of what comes of it. -/
def Yields (e : Edit α) (p : Program) (Q : α → Program → Prop) : Prop :=
  (e.run p).2.Roomy → ∃ a q, e.run p = (.ok a, q) ∧ Q a q

theorem Yields.of_run {e : Edit α} {Q : α → Program → Prop} {a : α} (h : e.run p = (.ok a, q)) (hQ : q.Roomy → Q a q) :
    e.Yields p Q := fun hroom => ⟨a, q, h, hQ (by rwa [h] at hroom)⟩

theorem yields_bind {e : Edit α} {f : α → Edit β} {Q : α → Program → Prop} {R : β → Program → Prop}
    (ha : ∀ r, (p.registry r).Arena) (hee : e.Evolves false false) (hfe : ∀ a, (f a).Evolves false false)
    (he : e.Yields p Q) (hf : ∀ a q, Q a q → (f a).Yields q R) : (e >>= f).Yields p R := by
  intro hroom
  have hev := hee p
  unfold Yields at he
  rw [run_bind] at hroom ⊢
  generalize e.run p = o at he hroom hev ⊢
  obtain ⟨x | a, q⟩ := o
  · obtain ⟨a, q, hcontra, -⟩ := he hroom
    cases hcontra
  · have hq := hroom.of_evolves (fun r => (ha r).of_evolves (hev.registry r)) (hfe a q)
    obtain ⟨a', q', heq, hQ⟩ := he hq
    cases heq
    exact hf a q hQ hroom

/-- The first part of an edit is known. -/
theorem Yields.after_run {e : Edit α} {f : α → Edit β} {R : β → Program → Prop} {a : α} (h : e.run p = (.ok a, q))
    (hf : (f a).Yields q R) : (e >>= f).Yields p R := by
  unfold Yields at hf ⊢
  rwa [run_bind, h]

theorem Yields.and {e : Edit α} {Q : α → Program → Prop} {P : Program → Prop} (he : e.Yields p Q)
    (hP : P (e.run p).2) : e.Yields p fun a q => Q a q ∧ P q := by
  intro hroom
  obtain ⟨a, q, hrun, hQ⟩ := he hroom
  rw [hrun] at hP
  exact ⟨a, q, hrun, hQ, hP⟩

theorem roomy_setRegistry {r : RegistryId} {x : Registry} (hr : r < p.registries.size)
    (hroom : (p.setRegistry r x).Roomy) : x.Roomy := by
  have h := hroom r
  rwa [registry_setRegistry, if_pos ⟨rfl, hr⟩] at h

/-! ## New blocks -/

/-- References to the definitions in some slots are on the ledger. The slots nest blocks that were added. -/
structure Supplied (p : Program) (l : Ledger) (r : RegistryId) (ss : List Slot) (q : Program) : Prop where
  exact : q.Exact ∅ (l + refs r (definitions ss))
  grown : Extends p q
  nests : ∀ s ∈ ss, ∀ c, s.payload = .block c → p.blocks.size ≤ c ∧ c < q.blocks.size
  registries : q.registries.size = p.registries.size

theorem Supplied.cons {r : RegistryId} {s : Slot} {ss : List Slot} {q' : Program} (h : Supplied p l r [s] q)
    (h' : Supplied q (l + refs r (definitions [s])) r ss q') : Supplied p l r (s :: ss) q' where
  exact := h'.exact.congr fun _ _ _ => by rw [definitions_cons s ss, refs_append, add_assoc]
  grown := h.grown.trans h'.grown
  nests t ht c hc := by
    rcases List.mem_cons.mp ht with rfl | ht
    · obtain ⟨hle, hlt⟩ := h.nests t List.mem_cons_self c hc
      exact ⟨hle, Nat.lt_of_lt_of_le hlt h'.grown.size⟩
    · obtain ⟨hle, hlt⟩ := h'.nests t ht c hc
      exact ⟨Nat.le_trans h.grown.size hle, hlt⟩
  registries := h'.registries.trans h.registries

/-- Slots are supplied one after the other, if each one is whatever was added before. -/
theorem mapM_yields {f : α → Edit Slot} {r : RegistryId} {as : List α} (hev : ∀ a, (f a).Evolves false false)
    (hf : ∀ a ∈ as, ∀ {q l}, Extends p q → q.registries.size = p.registries.size → q.Exact ∅ l →
      (f a).Yields q fun s q' => Supplied q l r [s] q') :
    ∀ {q l}, Extends p q → q.registries.size = p.registries.size → q.Exact ∅ l →
      (as.mapM f).Yields q fun ss q' => Supplied q l r ss q' := by
  induction as with
  | nil =>
    intro q l _ _ he
    rw [List.mapM_nil]
    exact .of_run rfl fun _ => ⟨by simpa [definitions] using he, .of_eq rfl, by simp, rfl⟩
  | cons a as ih =>
    intro q l hpq hsize he
    rw [List.mapM_cons]
    refine yields_bind (fun r => (he r).arena) (hev a)
      (fun _ => evolves_bind (evolves_mapM hev as) fun _ => evolves_pure _)
      (hf a List.mem_cons_self hpq hsize he) fun s q₁ h₁ => ?_
    refine yields_bind (fun r => (h₁.exact r).arena) (evolves_mapM hev as) (fun _ => evolves_pure _)
      (ih (fun a ha => hf a (List.mem_cons_of_mem _ ha)) (hpq.trans h₁.grown) (h₁.registries.trans hsize) h₁.exact)
      fun ss q₂ h₂ => ?_
    exact .of_run rfl fun _ => h₁.cons h₂

theorem newSlot_yields {r : RegistryId} (he : p.Exact ∅ l) (hr : r < p.registries.size) (id : Text) (i : Input) :
    (newSlot r id i).Yields p fun s q => Supplied p l r [s] q := by
  unfold newSlot
  split
  · exact .of_run rfl fun _ =>
      ⟨by simpa [definitions, Payload.definition?] using he, .of_eq rfl, by simp, rfl⟩
  · refine .of_run rfl fun hroom => ⟨?_, .of_eq rfl, by simp, Array.size_setIfInBounds⟩
    refine Exact.trade [] _ (by simpa using he) hr (Registry.palette_evolves (Registry.alloc_evolves _ _)) fun he => ?_
    exact Registry.Exact.alloc (he.congr fun _ _ => rfl) (roomy_setRegistry hr hroom)
  · exact .of_run rfl fun _ =>
      ⟨by simpa [definitions, Payload.definition?] using he, .of_eq rfl, by simp, rfl⟩

theorem blocks_newSlot (r : RegistryId) (id : Text) (i : Input) (p : Program) :
    ((newSlot r id i).run p).2.blocks = p.blocks := by
  unfold newSlot
  split <;> rfl

theorem run_retain {r : RegistryId} {h : Handle} {x : Holding} (hx : (p.registry r).holding? h = some x) :
    (onRegistry r fun y => y.retain h).run p =
      (.ok (.ok (x.refs + 1)), p.setRegistry r ((p.registry r).setRefs h x (x.refs + 1))) := by
  have h : (p.registry r).retain h = (.ok (x.refs + 1), (p.registry r).setRefs h x (x.refs + 1)) := by
    simp [Registry.retain, hx]
  show (Except.ok ((p.registry r).retain _).1, p.setRegistry r ((p.registry r).retain _).2) = _
  rw [h]

theorem run_retain_stale {r : RegistryId} {h : Handle} (hx : (p.registry r).holding? h = none) :
    (onRegistry r fun y => y.retain h).run p = (.ok (.error (.stale h)), p) := by
  have h : (p.registry r).retain h = (.error (.stale h), p.registry r) := by simp [Registry.retain, hx]
  show (Except.ok ((p.registry r).retain _).1, p.setRegistry r ((p.registry r).retain _).2) = _
  rw [h, setRegistry_self]

theorem newBlock_yields {r : RegistryId} {h : Handle} (he : p.Exact ∅ l) :
    (newBlock r h).Yields p fun _ q => q.Exact ∅ l ∧ Extends p q := by
  cases hx : (p.registry r).holding? h with
  | none =>
    refine .of_run (a := .error (.stale h)) (q := p) ?_ fun _ => ⟨he, .of_eq rfl⟩
    rw [newBlock, run_bind, run_retain_stale hx]
    rfl
  | some x =>
    have he' := he.retain hx
    refine .after_run (run_retain hx) ?_
    generalize hq : p.setRegistry r ((p.registry r).setRefs h x (x.refs + 1)) = q at he'
    have hr : r < q.registries.size := by
      rw [← hq]
      exact Nat.lt_of_lt_of_eq (lt_size_of_holding hx) Array.size_setIfInBounds.symm
    have hblocks : q.blocks = p.blocks := by rw [← hq]; rfl
    obtain ⟨y, hy⟩ := he'.holding (r := r) (Registry.holding?_eq_some.mp hx).1 (by simp [refs])
    have hk : (q.registry r).kind? h = some y.kind := Registry.kind?_eq_some.mpr ⟨y, hy, rfl⟩
    refine .after_run (a := q) (q := q) rfl ?_
    dsimp only
    rw [hk]
    dsimp only
    generalize (q.registry r).kind y.kind = d
    have hslots : ((d.inputs.filter (·.type.hasSlot)).mapM (newSlot r d.id)).Yields q
        fun ss q' => Supplied q (l + refs r [h]) r ss q' :=
      mapM_yields (evolves_newSlot r d.id)
        (fun i _ {q' l'} _ hsize he => newSlot_yields he (hsize ▸ hr) d.id i) (.of_eq rfl) rfl he'
    have hsame : (((d.inputs.filter (·.type.hasSlot)).mapM (newSlot r d.id)).run q).2.blocks = q.blocks :=
      rel_mapM (R := fun p q => q.blocks = p.blocks) (fun _ => rfl) (fun h h' => h'.trans h)
        (blocks_newSlot r d.id) _ q
    refine yields_bind (fun r => (he' r).arena) (evolves_mapM (evolves_newSlot r d.id) _)
      (fun ss => evolves_bind (evolves_ofState fun p => .of_eq rfl) fun _ => evolves_pure _)
      (hslots.and (P := fun q' => q'.blocks = q.blocks) hsame) fun ss q' h => ?_
    obtain ⟨hs, hq'⟩ := h
    refine .of_run rfl fun _ => ⟨Exact.addBlock (hs.exact.congr fun _ _ _ => ?_), ?_⟩
    · rw [Block.refs_eq, ← add_assoc]
    · refine (Extends.of_eq (hq'.trans hblocks)).trans (.addBlock fun s hs' c hc => ?_)
      obtain ⟨hle, hlt⟩ := hs.nests s hs' c hc
      rw [hq'] at hlt
      exact absurd hlt (Nat.not_lt.mpr hle)

/-! ## Copies -/

theorem run_block {b : BlockId} {x : Block} (hx : p.blocks[b]? = some x) : (block b).run p = (.ok x, p) := by
  rw [block, run_bind, show (get : Edit Program).run p = (.ok p, p) from rfl]
  dsimp only
  rw [hx]
  rfl

theorem run_block_absent {b : BlockId} (hx : p.blocks[b]? = none) :
    (block b).run p = (.error (.error (.access .absent)), p) := by
  rw [block, run_bind, show (get : Edit Program).run p = (.ok p, p) from rfl]
  dsimp only
  rw [hx]
  rfl

/-- A block was added, with all that it contains and refers to. -/
structure Added (p : Program) (l : Ledger) (c : BlockId) (q : Program) : Prop where
  exact : q.Exact ∅ l
  grown : Extends p q
  new : p.blocks.size ≤ c
  bounded : c < q.blocks.size
  registries : q.registries.size = p.registries.size

theorem Supplied.bare {r : RegistryId} {s : Slot} (he : p.Exact ∅ l) : Supplied p l r [s.bare] p where
  exact := he.congr fun r' h hz => by
    have hne : Handle.zero ≠ h := fun h0 => hz (by rw [← h0]; rfl)
    cases ht : s.type <;> simp [definitions, Slot.bare, Slot.payload, ht, Payload.definition?, refs, hne]
  grown := .of_eq rfl
  nests t ht c hc := by
    cases List.mem_singleton.mp ht
    exact (s.bare_ne_block c hc).elim
  registries := rfl

theorem copySlot_yields {copy : BlockId → Edit BlockId} {b : BlockId} {x : Block} {s : Slot} (hs : s ∈ x.slots)
    (hwell : s.WellTyped) (hcopy : ∀ c, s.payload = .block c → (copy c).Yields p (Added p l)) (hev : ∀ c, (copy c).Evolves false false)
    (hx : p.blocks[b]? = some x) (he : p.Exact ∅ l) :
    (copySlot copy x.registry s).Yields p fun s' q => Supplied p l x.registry [s'] q := by
  rw [copySlot_eq]
  split
  · rename_i c hc
    refine yields_bind (fun r => (he r).arena) (hev c) (fun _ => evolves_pure _) (hcopy c hc) fun d q hd => ?_
    refine .of_run rfl fun _ =>
      ⟨by simpa [definitions, Payload.definition?] using hd.exact, hd.grown, ?_, hd.registries⟩
    rintro s' hs' c' hc'
    cases List.mem_singleton.mp hs'
    rw [Slot.payload_hold] at hc'
    cases hc'
    exact ⟨hd.new, hd.bounded⟩
  · rename_i h hh
    split
    · exact .of_run rfl fun _ => .bare he
    · rename_i hz
      have hz' : h.generation ≠ 0 := by simpa [Handle.isZero] using hz
      have hpos : 0 < x.refs x.registry h := by
        have hmem : h ∈ definitions x.slots := List.mem_filterMap.mpr ⟨s, hs, by rw [hh]; rfl⟩
        simp only [Block.refs, refs, if_true]
        exact List.count_pos_iff.mpr (List.mem_cons_of_mem _ hmem)
      obtain ⟨y, hy⟩ := he.holding_of_block (Finset.notMem_empty b) hx hz' hpos
      have hr := lt_size_of_holding hy
      obtain ⟨h', hok, -⟩ := (he x.registry).copyDefinition hy
      have hrun : (onRegistry x.registry fun r => r.copyDefinition h).run p =
          (.ok (.ok h'), p.setRegistry x.registry ((p.registry x.registry).copyDefinition h).2) := by
        rw [← hok]
        rfl
      refine .after_run hrun (.of_run rfl fun hroom => ⟨?_, .of_eq rfl, by simp, Array.size_setIfInBounds⟩)
      rw [show definitions [s.bare.hold (.definition h')] = [h'] from rfl]
      refine Exact.trade [] [h'] (by simpa using he) hr
        (Registry.palette_evolves (Registry.copyDefinition_evolves _ _)) fun he => ?_
      obtain ⟨h'', hok', hex⟩ := he.copyDefinition hy
      rw [hok] at hok'
      cases hok'
      exact (hex (roomy_setRegistry hr hroom)).congr fun _ _ => rfl
  · rename_i hnb _
    have hnot : ¬ s.type = .block := fun ht => by
      obtain ⟨c, -, hc⟩ := hwell.block_of_type ht
      exact hnb c hc
    rw [if_neg hnot]
    exact .of_run rfl fun _ => .bare he

/-- The copy of a block, from the copies of its slots. -/
theorem copyTree_yields {src : Program} (hsrc : src.Nested) (htyped : src.Typed) {n : Nat} {b : BlockId}
    {parent : Option BlockId} (hlive : src.Live b) (hn : src.depth b < n) (he : p.Exact ∅ l) (hext : Extends src p) :
    (copyTree n b parent).Yields p (Added p l) := by
  induction n generalizing b parent p l with
  | zero => omega
  | succ n ih =>
    obtain ⟨x, hx, hz⟩ := hlive b .refl
    have hlt := (Array.getElem?_eq_some_iff.mp hx).1
    have hxp : p.blocks[b]? = some x := (hext.old hlt).trans hx
    have hz' : x.handle.generation ≠ 0 := by simpa [Handle.isZero] using hz
    obtain ⟨y, hy⟩ : ∃ y, (p.registry x.registry).holding? x.handle = some y :=
      he.holding_of_block (Finset.notMem_empty b) hxp hz' (by simp [Block.refs, refs])
    refine .after_run (run_block hxp) (.after_run (run_retain hy) ?_)
    have he₁ := he.retain hy
    generalize hp₁ : p.setRegistry x.registry _ = p₁ at he₁ ⊢
    have hp₁' : Extends p p₁ := .of_eq (by rw [← hp₁]; rfl)
    have hsize : p₁.blocks.size = p.blocks.size := by rw [← hp₁]; rfl
    -- the copy starts without slots
    let blank : Block := { x with slots := [], parent := parent, left := [] }
    refine .after_run (a := p₁.blocks.size) (q := (p₁.addBlock blank).2) rfl ?_
    have he₂ : (p₁.addBlock blank).2.Exact ∅ l := Exact.addBlock (he₁.congr fun _ _ _ => rfl)
    have hblank : (p₁.addBlock blank).2.blocks[p₁.blocks.size]? = some blank := by simp [Program.addBlock]
    have hp₂ : Extends p (p₁.addBlock blank).2 := hp₁'.trans (.addBlock (by simp [blank]))
    have hregs : (p₁.addBlock blank).2.registries.size = p.registries.size := by
      rw [← hp₁]
      exact Array.size_setIfInBounds
    generalize (p₁.addBlock blank).2 = p₂ at he₂ hblank hp₂ hregs ⊢
    rw [hsize] at hblank ⊢
    have hlt₂ := (Array.getElem?_eq_some_iff.mp hblank).1
    have hev : ∀ s, (copySlot (fun b => copyTree n b (some p.blocks.size)) x.registry s).Evolves false false :=
      evolves_copySlot (fun b => evolves_copyTree n b _) x.registry
    have hslots : (x.slots.mapM (copySlot (fun b => copyTree n b (some p.blocks.size)) x.registry)).Yields p₂
        fun ss q => Supplied p₂ l x.registry ss q := by
      refine mapM_yields hev (fun s hs {q l'} hq _ hex => ?_) (.of_eq rfl) rfl he₂
      have hq' := (hext.trans hp₂).trans hq
      refine copySlot_yields hs (htyped.slots hx s hs) (fun c hc => ?_) (fun b => evolves_copyTree n b _) ((hq'.old hlt).trans hx) hex
      have hnest : src.Nests b c := ⟨x, hx, s, hs, hc⟩
      have hless := hsrc.depth_lt hnest
      exact ih (fun d hd => hlive d (hd.head hnest)) (by omega) hex hq'
    refine yields_bind (fun r => (he₂ r).arena) (evolves_mapM hev _)
      (fun ss => evolves_bind (evolves_modify fun p => .of_eq rfl) fun _ => evolves_pure _) hslots fun ss q hss => ?_
    -- and takes the slots in the end
    have hq := (hss.grown.old hlt₂).trans hblank
    refine .of_run rfl fun _ => ⟨?_, ?_, Nat.le_refl _, ?_, hss.registries.trans hregs⟩
    · refine hss.exact.setBlock (Finset.notMem_empty _) hq fun r h _ => ?_
      simp only [Block.refs_eq, Pi.add_apply, blank, definitions, List.filterMap_nil, refs_nil, Pi.zero_apply]
      omega
    · refine (hp₂.trans hss.grown).setBlock (Nat.le_refl _) fun s hs c hc => ?_
      obtain ⟨hle, hlt⟩ := hss.nests s hs c hc
      exact ⟨Nat.lt_of_lt_of_le hlt₂ hle, hlt⟩
    · exact Nat.lt_of_lt_of_eq (Nat.lt_of_lt_of_le hlt₂ hss.grown.size) Array.size_setIfInBounds.symm

/-- Copies of some live blocks of a program, made one after the other. -/
theorem copyBlocks_yields {src : Program} (hsrc : src.Nested) (htyped : src.Typed) {bs : List BlockId}
    (hlive : ∀ b ∈ bs, src.Live b) (he : p.Exact ∅ l) (hext : Extends src p) : (copyBlocks bs).Yields p fun _ q => q.Exact ∅ l ∧ Extends p q := by
  have hmap : (bs.mapM fun b => copyBlock b none).Yields p fun _ q => q.Exact ∅ l ∧ Extends p q := by
    induction bs generalizing p with
    | nil => exact .of_run rfl fun _ => ⟨he, .of_eq rfl⟩
    | cons b bs ih =>
      rw [List.mapM_cons]
      have hfuel : src.depth b < p.blocks.size + 1 :=
        Nat.lt_succ_of_le (Nat.le_trans (src.depth_le b) hext.size)
      have hcopy : (copyBlock b none).Yields p (Added p l) :=
        .after_run (a := p) (q := p) rfl (copyTree_yields hsrc htyped (hlive b List.mem_cons_self) hfuel he hext)
      refine yields_bind (fun r => (he r).arena) (evolves_copyBlock b none)
        (fun _ => evolves_bind (evolves_mapM (fun b => evolves_copyBlock b none) bs) fun _ => evolves_pure _)
        hcopy fun c q hc => ?_
      refine yields_bind (fun r => (hc.exact r).arena) (evolves_mapM (fun b => evolves_copyBlock b none) bs)
        (fun _ => evolves_pure _)
        (ih (fun b hb => hlive b (List.mem_cons_of_mem _ hb)) hc.exact (hext.trans hc.grown)) fun cs q' hcs => ?_
      exact .of_run rfl fun _ => ⟨hcs.1, hc.grown.trans hcs.2⟩
  refine yields_bind (fun r => (he r).arena) (evolves_mapM (fun b => evolves_copyBlock b none) bs)
    (fun _ => evolves_ofState fun _ => .of_eq rfl) hmap fun cs q hq => ?_
  exact .of_run rfl fun _ => ⟨hq.1, hq.2.trans (.of_eq rfl)⟩

end Edit

end BlockEngine
