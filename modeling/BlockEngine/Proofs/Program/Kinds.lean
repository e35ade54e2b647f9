/-
  BlockEngine.Proofs.Program.Kinds — what kinds the blocks of a program are of.

  A block knows its kind by a number in its registry, and a number that the registry does not have yet
  would become a kind when the next definition is put to use. No operation makes such a block: registries
  lose no kinds, and a block is placed as one of a kind that is addressed or that another block is of
  (`Kindred`).

  Proved:
  - `Edit.newBlock_places`: a live handle is all it takes to place a block, and nothing else is touched but
    registries.
  - `known_after`: after any sequence of calls, every block is of a kind that its registry has.
-/

import BlockEngine.Proofs.Program.Accounts

namespace BlockEngine

namespace Program

variable {p q s : Program} {b c : BlockId} {x y : Block} {frees lists : Bool}

/-! ## Known kinds -/

/-- The block is there, and its registry has its kind. -/
def Known (p : Program) (b : BlockId) : Prop :=
  ∃ x, p.blocks[b]? = some x ∧ x.kind < (p.registry x.registry).kinds.size

theorem Known.lt_size (h : p.Known b) : b < p.blocks.size := by
  obtain ⟨x, hx, -⟩ := h
  exact (Array.getElem?_eq_some_iff.mp hx).1

/-- Whatever happens to registries, a block that stays as it is stays of its kind. -/
theorem Known.of_evolves (h : p.Known b) (he : Evolves frees lists p q) (hb : q.blocks[b]? = p.blocks[b]?) :
    q.Known b ∧ q.kindOf b = p.kindOf b := by
  obtain ⟨x, hx, hk⟩ := h
  refine ⟨⟨x, hb.trans hx, Nat.lt_of_lt_of_le hk (Registry.kinds_le_of_evolves (he.registry _))⟩, ?_⟩
  rw [kindOf, kindOf, hb, hx]
  exact Registry.kind_evolves (he.registry _) hk

/-! ## Where kinds come from -/

/-- The block is of the kind of one of the program's. -/
def Shares (p : Program) (x : Block) : Prop :=
  ∃ (c : BlockId) (y : Block), p.blocks[c]? = some y ∧ y.registry = x.registry ∧ y.kind = x.kind

/-- Registries have lost no kinds, and a block that is new or was changed is of the kind of an earlier one or
    of one that its registry has. -/
structure Kindred (p q : Program) : Prop where
  kinds : ∀ r, (p.registry r).kinds.size ≤ (q.registry r).kinds.size
  blocks : ∀ {b : BlockId} {x : Block}, q.blocks[b]? = some x → p.Shares x ∨ x.kind < (q.registry x.registry).kinds.size

theorem Shares.of_block (hx : p.blocks[b]? = some x) : p.Shares x := ⟨b, x, hx, rfl, rfl⟩

namespace Kindred

theorem of_evolves (h : Evolves frees lists p q) (hb : q.blocks = p.blocks) : Kindred p q :=
  ⟨fun r => Registry.kinds_le_of_evolves (h.registry r), fun hx => .inl (.of_block (hb ▸ hx))⟩

theorem of_eq (hr : q.registries = p.registries) (hb : q.blocks = p.blocks) : Kindred p q :=
  ⟨fun r => by rw [registry, registry, hr], fun hx => .inl (.of_block (hb ▸ hx))⟩

theorem refl (p : Program) : Kindred p p := .of_eq rfl rfl

theorem trans (h : Kindred p q) (h' : Kindred q s) : Kindred p s where
  kinds r := Nat.le_trans (h.kinds r) (h'.kinds r)
  blocks {b x} hx := by
    rcases h'.blocks hx with ⟨c, y, hy, hr, hk⟩ | hk
    · rcases h.blocks hy with ⟨d, z, hz, hr', hk'⟩ | hk'
      · exact .inl ⟨d, z, hz, hr'.trans hr, hk'.trans hk⟩
      · rw [hr, hk] at hk'
        exact .inr (Nat.lt_of_lt_of_le hk' (h'.kinds _))
    · exact .inr hk

theorem setBlock (h : Kindred p q) (hx : p.Shares x) (b : BlockId) : Kindred p (q.setBlock b x) where
  kinds := h.kinds
  blocks {c y} hy := by
    simp only [Program.setBlock, Array.getElem?_setIfInBounds] at hy
    split at hy
    · split at hy
      · cases hy
        exact .inl hx
      · cases hy
    · exact h.blocks hy

theorem addBlock (h : Kindred p q) (hx : p.Shares x ∨ x.kind < (q.registry x.registry).kinds.size) :
    Kindred p (q.addBlock x).2 where
  kinds := h.kinds
  blocks {c y} hy := by
    simp only [Program.addBlock, Array.getElem?_push] at hy
    split at hy
    · cases hy
      exact hx
    · exact h.blocks hy

theorem known (h : Kindred p q) (hp : ∀ b < p.blocks.size, p.Known b) (hb : b < q.blocks.size) : q.Known b := by
  refine ⟨_, Array.getElem?_eq_getElem hb, ?_⟩
  rcases h.blocks (Array.getElem?_eq_getElem hb) with ⟨c, y, hy, hr, hk⟩ | hk
  · obtain ⟨y', hy', hlt⟩ := hp c (Array.getElem?_eq_some_iff.mp hy).1
    cases hy.symm.trans hy'
    rw [hr, hk] at hlt
    exact Nat.lt_of_lt_of_le hlt (h.kinds _)
  · exact hk

end Kindred

theorem Relinked.kindred (h : Relinked p q) : Kindred p q where
  kinds r := by rw [registry, registry, h.registries]
  blocks {b x} hx := by
    obtain ⟨parent, hb⟩ := h.blocks b
    rw [hx] at hb
    obtain ⟨y, hy, rfl⟩ := Option.map_eq_some_iff.mp hb.symm
    exact .inl ⟨b, y, hy, rfl, rfl⟩

theorem Known.relinked (h : p.Known b) (hr : Relinked p q) : q.Known b := by
  obtain ⟨x, hx, hk⟩ := h
  obtain ⟨parent, hb⟩ := hr.blocks b
  refine ⟨{ x with parent := parent }, by rw [hb, hx]; rfl, ?_⟩
  rw [registry, hr.registries]
  exact hk

theorem kindred_setSlot (b : BlockId) (i : Nat) (t : Slot) (p : Program) : Kindred p (p.setSlot b i t) := by
  unfold setSlot
  split
  · rename_i x hx
    refine Kindred.setBlock (.refl p) ?_ b
    exact ⟨b, x, hx, rfl, rfl⟩
  · exact .refl p

theorem kindred_drop (r : RegistryId) (h : Handle) (p : Program) : Kindred p (p.drop r h) :=
  .of_evolves (evolves_drop r h p) (blocks_drop r h p)

theorem kindred_destroyTree (n : Nat) (b : BlockId) (p : Program) : Kindred p (destroyTree n b p) := by
  induction n generalizing b p with
  | zero => exact .refl p
  | succ n ih =>
    rw [destroyTree]
    split
    · exact .refl p
    · rename_i x hx
      refine Kindred.setBlock ?_ ?_ b
      on_goal 2 => exact ⟨b, x, hx, rfl, rfl⟩
      refine (foldl_rel Kindred.refl Kindred.trans (fun p t => ?_) _ _).trans (kindred_drop _ _ _)
      split
      · exact ih _ _
      · exact kindred_drop _ _ _
      · exact .refl p

theorem kindred_destroyBlock (b : BlockId) (p : Program) : Kindred p (p.destroyBlock b) := kindred_destroyTree _ b p

theorem kindred_destroyChain (c : ChainId) (p : Program) : Kindred p (p.destroyChain c) :=
  (foldl_rel Kindred.refl Kindred.trans (fun p b => kindred_destroyBlock b p) _ p).trans
    (.of_eq rfl rfl)

theorem kindred_clearPayload (r : RegistryId) (t : Slot) (p : Program) : Kindred p (p.clearPayload r t) := by
  unfold clearPayload
  split
  · exact kindred_destroyBlock _ p
  · exact kindred_drop _ _ p
  · exact .refl p

/-! ## One more block -/

/-- A block that nests none and has no parent is as it would be at the top. -/
theorem relink_leaf (hx : p.blocks[b]? = some x) (hparent : x.parent = none)
    (hleaf : ∀ s ∈ x.slots, ∀ c, s.payload ≠ .block c) : p.relink b none = p := by
  have hsame : p.setBlock b { x with parent := none } = p := by
    have hblocks : p.blocks.setIfInBounds b { x with parent := none } = p.blocks := by
      apply Array.ext_getElem?
      intro i
      rw [Array.getElem?_setIfInBounds, ← hparent]
      split
      · rename_i hi
        rw [← hi, hx, if_pos (Array.getElem?_eq_some_iff.mp hx).1]
      · rfl
    rw [setBlock, hblocks]
  rw [relink, relinkTree, hx]
  dsimp only
  rw [hsame]
  generalize x.slots = ss at hleaf
  induction ss with
  | nil => rfl
  | cons s ss ih =>
    obtain ⟨hs, hss⟩ := List.forall_mem_cons.mp hleaf
    rw [List.foldl_cons]
    split
    · exact (hs _ ‹_›).elim
    · exact ih hss

/-- A block of a kind was placed. It is at the top, and registries apart nothing else is different. -/
structure Gains (p : Program) (d : Definition) (q : Program) : Prop where
  evolves : Program.Evolves false false p q
  chains : q.chains = p.chains
  size : q.blocks.size = p.blocks.size + 1
  old : ∀ b < p.blocks.size, q.blocks[b]? = p.blocks[b]?
  known : q.Known p.blocks.size
  kind : q.kindOf p.blocks.size = d
  top : q.relink p.blocks.size none = q

theorem Gains.keeps {d : Definition} (h : Gains p d q) (hb : p.Known b) : q.Known b ∧ q.kindOf b = p.kindOf b :=
  hb.of_evolves h.evolves (h.old b hb.lt_size)

/-- A placed block is of a kind that its registry has. -/
theorem Gains.kindred {d : Definition} (h : Gains p d q) : Kindred p q where
  kinds r := Registry.kinds_le_of_evolves (h.evolves.registry r)
  blocks {b x} hx := by
    by_cases hb : b < p.blocks.size
    · exact .inl (.of_block ((h.old b hb).symm.trans hx))
    · have hlt := (Array.getElem?_eq_some_iff.mp hx).1
      rw [h.size] at hlt
      obtain rfl : b = p.blocks.size := Nat.le_antisymm (Nat.lt_succ_iff.mp hlt) (Nat.not_lt.mp hb)
      obtain ⟨y, hy, hk⟩ := h.known
      cases hx.symm.trans hy
      exact .inr hk

end Program

namespace Edit

open Program

variable {α β : Type} {p : Program}

theorem kindred_onRegistry {r : RegistryId} {f : Registry → α × Registry} {frees lists : Bool}
    (h : ∀ x, Registry.Evolves frees lists x (f x).2) (p : Program) : Kindred p ((onRegistry r f).run p).2 :=
  .of_evolves (evolves_onRegistry h p) rfl

theorem kindred_replace (name : Text) (input : InputType) (b : BlockId) (i : Int) (payload : Payload) (p : Program) :
    Kindred p ((replace name input b i payload).run p).2 := by
  rcases run_replace name input b i payload p with ⟨f, hf⟩ | ⟨x, s, -, -, -, hrun⟩
  · rw [hf]
    exact .refl p
  · rw [hrun]
    exact (kindred_clearPayload _ s p).trans (kindred_setSlot _ _ _ _)

theorem kindred_nest (b : BlockId) (i : Int) (child : BlockId) (p : Program) :
    Kindred p ((nest b i child).run p).2 := by
  refine rel_bind .trans (kindred_replace _ _ b i _) (fun _ p => ?_) p
  exact (relinked_relink child _ p).kindred

theorem kindred_takeBlock (b : BlockId) (i : Int) (p : Program) : Kindred p ((takeBlock b i).run p).2 := by
  rcases run_takeBlock b i p with ⟨o, -, ho⟩ | ⟨x, s, hx, -, -, hrun⟩
  · rw [ho]
    exact .refl p
  · have htaken : Kindred p (p.setBlock b { x with slots := x.slots.set i.toNat s.taken }) := by
      refine Kindred.setBlock (.refl p) ?_ b
      exact ⟨b, x, hx, rfl, rfl⟩
    rcases hrun with ⟨c, y, -, hy, hrun⟩ | ⟨-, f, hrun⟩
    · rw [hrun]
      refine htaken.trans (Kindred.setBlock (.refl _) ?_ c)
      exact ⟨c, y, hy, rfl, rfl⟩
    · rw [hrun]
      exact htaken

theorem kindred_clear (b : BlockId) (i : Int) (p : Program) : Kindred p ((clear b i).run p).2 := by
  rcases run_clear b i p with ⟨f, hf⟩ | ⟨x, s, -, -, hrun⟩
  · rw [hf]
    exact .refl p
  · rw [hrun]
    exact (kindred_clearPayload _ s p).trans (kindred_setSlot _ _ _ _)

/-! ## New blocks -/

theorem run_newSlot (r : RegistryId) (id : Text) (i : Input) (p : Program) :
    ∃ s q, (newSlot r id i).run p = (.ok s, q) ∧ q.blocks = p.blocks ∧ q.chains = p.chains ∧
      ∀ b, s.payload ≠ .block b := by
  unfold newSlot
  split <;> exact ⟨_, _, rfl, rfl, rfl, nofun⟩

theorem run_newSlots (r : RegistryId) (id : Text) (is : List Input) (p : Program) :
    ∃ ss q, (is.mapM (newSlot r id)).run p = (.ok ss, q) ∧ q.blocks = p.blocks ∧ q.chains = p.chains ∧
      ∀ s ∈ ss, ∀ b, s.payload ≠ .block b := by
  induction is generalizing p with
  | nil => exact ⟨[], p, rfl, rfl, rfl, nofun⟩
  | cons i is ih =>
    obtain ⟨s, q, hrun, hblocks, hchains, hs⟩ := run_newSlot r id i p
    obtain ⟨ss, q', hrun', hblocks', hchains', hss⟩ := ih q
    refine ⟨s :: ss, q', ?_, hblocks'.trans hblocks, hchains'.trans hchains, List.forall_mem_cons.mpr ⟨hs, hss⟩⟩
    rw [List.mapM_cons, run_bind, hrun]
    dsimp only
    rw [run_bind, hrun']
    rfl

/-- A block of the kind that a handle addresses is placed. It nests none, and the chains stay as they are. -/
theorem run_newBlock {r : RegistryId} {h : Handle} {k : KindId} (ha : (p.registry r).Arena)
    (hk : (p.registry r).kind? h = some k) :
    ∃ ss q, (newBlock r h).run p = (.ok (.ok p.blocks.size), q) ∧ q.chains = p.chains ∧
      q.blocks = p.blocks.push { registry := r, handle := h, kind := k, slots := ss, parent := none } ∧
      ∀ s ∈ ss, ∀ b, s.payload ≠ .block b := by
  obtain ⟨x, hx, -⟩ := Registry.kind?_eq_some.mp hk
  have he := (evolves_onRegistry (r := r) (Registry.retain_evolves false h) p).registry r
  rw [newBlock, run_bind]
  rw [run_retain hx] at he ⊢
  have hk' := Registry.kind?_grows ha he hk
  generalize hq : p.setRegistry r ((p.registry r).setRefs h x (x.refs + 1)) = q at hk' ⊢
  have hq' : q.blocks = p.blocks ∧ q.chains = p.chains := hq ▸ ⟨rfl, rfl⟩
  dsimp only
  rw [run_bind, show (get : Edit Program).run q = (.ok q, q) from rfl]
  dsimp only
  rw [hk']
  dsimp only
  obtain ⟨ss, q', hrun, hblocks, hchains, hss⟩ := run_newSlots r ((q.registry r).kind k).id
    (((q.registry r).kind k).inputs.filter (·.type.hasSlot)) q
  rw [run_bind, hrun]
  refine ⟨ss, (q'.addBlock { registry := r, handle := h, kind := k, slots := ss, parent := none }).2, ?_,
    hchains.trans hq'.2, ?_, hss⟩
  · rw [← hq'.1, ← hblocks]
    rfl
  · rw [← hq'.1, ← hblocks]
    rfl

/-- A live handle is all it takes to place a block. -/
theorem newBlock_places {r : RegistryId} {h : Handle} {d : Definition} (ha : (p.registry r).Arena)
    (hd : (p.registry r).definition? h = some d) :
    ∃ q, (newBlock r h).run p = (.ok (.ok p.blocks.size), q) ∧ Gains p d q := by
  obtain ⟨k, hk, rfl⟩ := Option.map_eq_some_iff.mp hd
  obtain ⟨x, hx, rfl⟩ := Registry.kind?_eq_some.mp hk
  have hknown := ha.known (Registry.holding?_eq_some.mp hx).2.2
  obtain ⟨ss, q, hrun, hchains, hblocks, hleaf⟩ := run_newBlock ha hk
  have he := evolves_newBlock r h p
  rw [hrun] at he
  have hb : q.blocks[p.blocks.size]? = some { registry := r, handle := h, kind := x.kind, slots := ss, parent := none } := by rw [hblocks, Array.getElem?_push_size]
  refine ⟨q, hrun, {
    evolves := he
    chains := hchains
    size := by rw [hblocks, Array.size_push]
    old := fun b hb => by rw [hblocks, Array.getElem?_push, if_neg (Nat.ne_of_lt hb)]
    known := ⟨_, hb, Nat.lt_of_lt_of_le hknown (Registry.kinds_le_of_evolves (he.registry r))⟩
    kind := ?_
    top := relink_leaf hb rfl hleaf }⟩
  rw [kindOf, hb]
  exact Registry.kind_evolves (he.registry r) hknown

theorem kindred_newBlock (r : RegistryId) (h : Handle) (ha : (p.registry r).Arena) :
    Kindred p ((newBlock r h).run p).2 := by
  cases hx : (p.registry r).holding? h with
  | none =>
    rw [newBlock, run_bind, run_retain_stale hx]
    exact .refl p
  | some x =>
    obtain ⟨q, hrun, hq⟩ := newBlock_places ha (Registry.definition?_eq_some.mpr ⟨x, hx, rfl⟩)
    rw [hrun]
    exact hq.kindred

/-! ## Copies -/

theorem keeps_bind {e : Edit α} {f : α → Edit β} {I : Program → Prop} (he : I (e.run p).2)
    (hf : ∀ a q, I q → I ((f a).run q).2) : I ((e >>= f).run p).2 := by
  rw [run_bind]
  generalize e.run p = o at he
  obtain ⟨x | a, q⟩ := o
  · exact he
  · exact hf a q he

theorem kindred_copySlot {copy : BlockId → Edit BlockId} (hc : ∀ b p, Kindred p ((copy b).run p).2) (r : RegistryId)
    (s : Slot) (p : Program) : Kindred p ((copySlot copy r s).run p).2 := by
  unfold copySlot
  split
  · split
    · exact .refl p
    · refine rel_bind .trans (hc _) (fun _ p => ?_) p
      exact .refl p
  · split
    · exact .refl p
    · refine rel_bind .trans (kindred_onRegistry (Registry.copyDefinition_evolves _)) (fun o => ?_) p
      split <;> exact .refl
  · exact .refl p

theorem kindred_copyTree (n : Nat) (b : BlockId) (parent : Option BlockId) (p : Program) :
    Kindred p ((copyTree n b parent).run p).2 := by
  induction n generalizing b parent p with
  | zero => exact .refl p
  | succ n ih =>
    rw [copyTree, run_bind]
    cases hx : p.blocks[b]? with
    | none =>
      rw [run_block_absent hx]
      exact .refl p
    | some x =>
      -- the copy is of the kind of `x` when it is added and when it gets its slots
      have hshares : ∀ slots, p.Shares { x with slots := slots, parent := parent, left := [] } := fun _ => ⟨b, x, hx, rfl, rfl⟩
      rw [run_block hx]
      refine keeps_bind (I := Kindred p) (kindred_onRegistry (Registry.retain_evolves false _) p) fun o q hq => ?_
      split
      · exact hq
      · refine keeps_bind (I := Kindred p) (hq.addBlock (.inl (hshares []))) fun c q hq => ?_
        refine keeps_bind (I := Kindred p) (hq.trans ?_) fun ss q hq => ?_
        · exact rel_mapM .refl .trans (kindred_copySlot (fun b => ih b _) _) _ q
        · exact hq.setBlock (hshares ss) c

theorem kindred_copyBlock (b : BlockId) (parent : Option BlockId) (p : Program) :
    Kindred p ((copyBlock b parent).run p).2 := by
  rw [copyBlock, run_bind, show (get : Edit Program).run p = (.ok p, p) from rfl]
  exact kindred_copyTree _ b parent p

theorem kindred_copyBlocks (bs : List BlockId) (p : Program) : Kindred p ((copyBlocks bs).run p).2 := by
  refine rel_bind .trans (rel_mapM .refl .trans (fun b p => kindred_copyBlock b none p) bs) (fun cs p => ?_) p
  exact .of_eq rfl rfl

theorem kindred_copyRun (c : ChainId) (i : Int) (p : Program) : Kindred p ((copyRun c i).run p).2 := by
  rw [copyRun, run_bind, show (get : Edit Program).run p = (.ok p, p) from rfl]
  dsimp only
  split
  · exact .refl p
  · rw [run_map_ok]
    exact kindred_copyBlocks _ p

theorem kindred_copyTail (c : ChainId) (i : Int) (p : Program) : Kindred p ((copyTail c i).run p).2 := by
  rw [copyTail, run_bind, show (get : Edit Program).run p = (.ok p, p) from rfl]
  dsimp only
  split
  · exact .refl p
  · rw [run_map_ok]
    exact kindred_copyBlocks _ p

end Edit

/-! ## Calls -/

open Program

theorem Call.kindred (c : Call) {p : Program} (ha : ∀ r, (p.registry r).Arena) : Kindred p (c.edit.run p).2 := by
  have hquiet : ∀ {α : Type} {e : Edit α}, Kindred p (e.run p).2 → Kindred p ((quiet e).run p).2 := fun h => by
    rw [run_quiet]
    exact h
  have hanswer : ∀ {α : Type} {e : Edit α} (f : α → Option Handle), Kindred p (e.run p).2 →
      Kindred p ((do return f (← e) : Edit (Option Handle)).run p).2 := fun f h => by
    rw [Edit.run_map_ok]
    exact h
  cases c with
  | register r d => exact hanswer some (Edit.kindred_onRegistry (Registry.register_evolves d) p)
  | newCustom r d => exact hanswer some (Edit.kindred_onRegistry (Registry.alloc_evolves d) p)
  | newProcedure r name ps => exact hanswer some (Edit.kindred_onRegistry (Registry.newProcedure_evolves name ps) p)
  | copyDefinition r h => exact hanswer Except.toOption (Edit.kindred_onRegistry (Registry.copyDefinition_evolves h) p)
  | unregister r h => exact hquiet (Edit.kindred_onRegistry (Registry.unregister_evolves h) p)
  | retain r h => exact hquiet (Edit.kindred_onRegistry (Registry.retain_evolves false h) p)
  | release r h => exact hquiet (Edit.kindred_onRegistry (Registry.release_evolves h) p)
  | newBlock r h => exact hquiet (Edit.kindred_newBlock r h (ha r))
  | copyBlock b parent => exact hquiet (Edit.kindred_copyBlock b parent p)
  | destroyBlock b => exact hquiet (kindred_destroyBlock b p)
  | setText b i t => exact hquiet (Edit.kindred_replace _ _ b i _ p)
  | setConst b i t => exact hquiet (Edit.kindred_replace _ _ b i _ p)
  | setDefinition b i h => exact hquiet (Edit.kindred_replace _ _ b i _ p)
  | nest b i child => exact hquiet (Edit.kindred_nest b i child p)
  | takeBlock b i => exact hquiet (Edit.kindred_takeBlock b i p)
  | clear b i => exact hquiet (Edit.kindred_clear b i p)
  | newChain bs => exact hquiet (Edit.relinks_newChain bs p).kindred
  | append c bs => exact hquiet (Edit.relinks_append c bs p).kindred
  | insert dst src i => exact hquiet (Edit.relinks_insert dst src i p).kindred
  | detach dst src i => exact hquiet (Edit.relinks_detach dst src i p).kindred
  | copyRun c i => exact hquiet (Edit.kindred_copyRun c i p)
  | copyTail c i => exact hquiet (Edit.kindred_copyTail c i p)
  | destroyChain c => exact hquiet (kindred_destroyChain c p)

namespace Program

/-- After any sequence of calls, blocks are of kinds that their registries have. -/
theorem known_after {p : Program} (ha : ∀ r, (p.registry r).Arena) (hp : ∀ b < p.blocks.size, p.Known b)
    (calls : List Call) : ∀ b < (p.after calls).blocks.size, (p.after calls).Known b := by
  induction calls generalizing p with
  | nil => exact hp
  | cons c calls ih =>
    refine ih (fun r => (ha r).of_evolves ((c.evolves_edit p).registry r)) fun b hb => ?_
    exact (c.kindred ha).known hp hb

end Program

end BlockEngine
