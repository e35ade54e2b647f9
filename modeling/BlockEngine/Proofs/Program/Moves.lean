/-
  BlockEngine.Proofs.Program.Moves — every call keeps a program linked.

  A call is `Careful` if it nests and lists only blocks that lie in no slot and no chain, nests no block in
  itself, and copies blocks for no parent.

  Proved:
  - `Call.linked_edit`: a careful call takes a linked program to a linked one and lets no block go astray.
    Only a block that it destroys in its slot comes off its parent.
-/

import BlockEngine.Proofs.Program.Growth

namespace BlockEngine

namespace Program

variable {p q s : Program} {a b c child : BlockId} {k : ChainId} {bs : List BlockId} {i : Int}
  {off : BlockId → Nat → BlockId → Option BlockId → Prop}

/-! ## Chains -/

theorem mem_chain_setChain (h : b ∈ (p.setChain c bs).chain k) : b ∈ bs ∨ b ∈ p.chain k := by
  simp only [chain, setChain, Array.getElem?_setIfInBounds] at h
  split at h
  · split at h
    · exact .inl h
    · simp at h
  · exact .inr h

theorem mem_chain_addChain (h : b ∈ (p.addChain bs).2.chain k) : b ∈ bs ∨ b ∈ p.chain k := by
  simp only [chain, addChain, Array.getElem?_push] at h
  split at h
  · exact .inl h
  · exact .inr h

/-- Blocks that no slot holds are left without parents. -/
theorem Linked.detachAll (hp : p.Linked off) (hbs : ∀ b ∈ bs, b < p.blocks.size ∧ p.Free b) :
    (p.detachAll bs).Linked off ∧ Tamer p (p.detachAll bs) ∧ (p.detachAll bs).chains = p.chains ∧
      ∀ b ∈ bs, (p.detachAll bs).Root b := by
  induction bs generalizing p with
  | nil => exact ⟨hp, .refl p, rfl, nofun⟩
  | cons b bs ih =>
    obtain ⟨hb, hbs⟩ := List.forall_mem_cons.mp hbs
    obtain ⟨hlinked, htamer, hroot⟩ := hp.detach hb.1 hb.2
    have hrelinked := relinked_relink b none p
    obtain ⟨hlinked', htamer', hchains, hroots⟩ := ih hlinked fun c hc =>
      ⟨Nat.lt_of_lt_of_le (hbs c hc).1 htamer.size, hrelinked.free_iff.mpr (hbs c hc).2⟩
    refine ⟨hlinked', htamer.trans htamer', hchains.trans ?_, List.forall_mem_cons.mpr ⟨?_, hroots⟩⟩
    · exact (settles_relink (Array.getElem?_eq_getElem hb.1) none).chains
    · exact htamer'.root hroot ((relinked_detachAll bs _).free_iff.mpr hroot.free)

/-- Blocks that no slot holds are put into chains. -/
theorem Linked.listed (hp : p.Linked off) (hbs : ∀ b ∈ bs, b < p.blocks.size ∧ p.Free b)
    (hblocks : q.blocks = (p.detachAll bs).blocks)
    (hc : ∀ k b, b ∈ q.chain k → b ∈ bs ∨ ∃ k', b ∈ (p.detachAll bs).chain k') : q.Linked off ∧ Tamer p q := by
  obtain ⟨hlinked, htamer, -, hroots⟩ := hp.detachAll hbs
  obtain ⟨hlinked', htamer'⟩ := hlinked.relisted hblocks fun k b hmem =>
    (hc k b hmem).elim (hroots b) fun ⟨_, h⟩ => hlinked.top h
  exact ⟨hlinked', htamer.trans htamer'⟩

/-- Blocks of chains are distributed anew. -/
theorem Linked.moved (hp : p.Linked off) (hb : q.blocks = p.blocks)
    (hc : ∀ k b, b ∈ q.chain k → ∃ k', b ∈ p.chain k') : q.Linked off ∧ Tamer p q :=
  hp.relisted hb fun k b hmem => (hc k b hmem).elim fun _ => hp.top

theorem Linked.of_chain (hp : p.Linked off) (bs : List BlockId) (hbs : ∀ b ∈ bs, ∃ k, b ∈ p.chain k) :
    ∀ b ∈ bs, b < p.blocks.size ∧ p.Free b := fun b hb =>
  (hbs b hb).elim fun _ h => ⟨(hp.top h).there, (hp.top h).free⟩

theorem run_get (p : Program) : (get : Edit Program).run p = (.ok p, p) := rfl

theorem run_append (c : ChainId) (bs : List BlockId) (p : Program) :
    (Edit.append c bs).run p = (.ok (), (p.detachAll bs).setChain c ((p.detachAll bs).chain c ++ bs)) := rfl

theorem Linked.newChain (hp : p.Linked off) (hbs : ∀ b ∈ bs, b < p.blocks.size ∧ p.Free b) :
    ((Edit.newChain bs).run p).2.Linked off ∧ Tamer p ((Edit.newChain bs).run p).2 :=
  hp.listed hbs rfl fun k _ h => (mem_chain_addChain h).imp_right fun h => ⟨k, h⟩

theorem Linked.append (hp : p.Linked off) (hbs : ∀ b ∈ bs, b < p.blocks.size ∧ p.Free b) (c : ChainId) :
    ((Edit.append c bs).run p).2.Linked off ∧ Tamer p ((Edit.append c bs).run p).2 := by
  refine hp.listed hbs rfl fun k b h => ?_
  rcases mem_chain_setChain h with h | h
  · exact (List.mem_append.mp h).symm.imp_right fun h => ⟨c, h⟩
  · exact .inr ⟨k, h⟩

theorem Linked.insert {dst src : ChainId} (hp : p.Linked off) :
    ((Edit.insert dst src i).run p).2.Linked off ∧ Tamer p ((Edit.insert dst src i).run p).2 := by
  have hemptied : ∀ k b, b ∈ (p.setChain src []).chain k → ∃ k', b ∈ p.chain k' := fun k b h =>
    ⟨k, (mem_chain_setChain h).resolve_left List.not_mem_nil⟩
  rw [Edit.insert, Edit.run_bind, run_get]
  dsimp only
  split
  · exact ⟨hp, .refl p⟩
  · rw [Edit.run_bind, Edit.run_modify]
    dsimp only
    rw [Edit.run_bind, run_get]
    dsimp only
    split
    · exact hp.moved rfl hemptied
    · rw [Edit.run_map_ok, Edit.run_modify]
      let bs := ((p.setChain src []).chain dst).take i.toNat ++ p.chain src ++ ((p.setChain src []).chain dst).drop i.toNat
      obtain ⟨hlinked, htamer⟩ : ((p.setChain src []).setChain dst bs).Linked off ∧
          Tamer p ((p.setChain src []).setChain dst bs) := by
        refine hp.moved rfl fun k b h => ?_
        rcases mem_chain_setChain h with h | h
        · rcases List.mem_append.mp h with h | h
          · rcases List.mem_append.mp h with h | h
            · exact hemptied dst b (List.mem_of_mem_take h)
            · exact ⟨src, h⟩
          · exact hemptied dst b (List.mem_of_mem_drop h)
        · exact hemptied k b h
      obtain ⟨hdone, htamer', -⟩ := hlinked.detachAll (hp.of_chain (p.chain src) fun b h => ⟨src, h⟩)
      exact ⟨hdone, htamer.trans htamer'⟩

theorem Linked.split {dst src : ChainId} (hp : p.Linked off) :
    ((Edit.detach dst src i).run p).2.Linked off ∧ Tamer p ((Edit.detach dst src i).run p).2 := by
  rw [Edit.detach, Edit.run_bind, run_get]
  dsimp only
  split
  · exact ⟨hp, .refl p⟩
  · rename_i stop hstop
    rw [Edit.run_bind, Edit.run_modify]
    dsimp only
    obtain ⟨hlinked, htamer⟩ :
        (p.setChain src ((p.chain src).take i.toNat ++ (p.chain src).drop stop)).Linked off ∧
          Tamer p (p.setChain src ((p.chain src).take i.toNat ++ (p.chain src).drop stop)) := by
      refine hp.moved rfl fun k b h => ?_
      rcases mem_chain_setChain h with h | h
      · exact ⟨src, (List.mem_append.mp h).elim List.mem_of_mem_take List.mem_of_mem_drop⟩
      · exact ⟨k, h⟩
    obtain ⟨happended, htamer'⟩ := hlinked.append (c := dst)
      (hp.of_chain (((p.chain src).drop i.toNat).take (stop - i.toNat)) fun b h =>
        ⟨src, List.mem_of_mem_drop (List.mem_of_mem_take h)⟩)
    rw [Edit.run_bind, run_append]
    dsimp only
    rw [Edit.run_map_ok, Edit.run_modify]
    obtain ⟨hdone, htamer'', -⟩ := happended.detachAll (happended.of_chain (Program.chain _ src) fun b h => ⟨src, h⟩)
    exact ⟨hdone, htamer.trans (htamer'.trans htamer'')⟩

theorem Linked.copyBlocks (hp : p.Linked off) (bs : List BlockId) :
    ((Edit.copyBlocks bs).run p).2.Linked off ∧ Tamer p ((Edit.copyBlocks bs).run p).2 := by
  obtain ⟨hgrown, hroots⟩ := Edit.copies_grow bs hp
  rw [Edit.copyBlocks, Edit.run_bind]
  generalize (bs.mapM fun b => Edit.copyBlock b none).run p = o at hgrown hroots
  obtain ⟨f | cs, q⟩ := o
  · exact hp.grown hgrown
  · obtain ⟨hlinked, htamer⟩ := hp.grown hgrown
    obtain ⟨hlisted, htamer'⟩ := hlinked.relisted (q := (q.addChain cs).2) rfl fun k c h =>
      (mem_chain_addChain h).elim (hroots cs rfl c) hlinked.top
    exact ⟨hlisted, htamer.trans htamer'⟩

theorem Linked.copyRun (hp : p.Linked off) (c : ChainId) (i : Int) :
    ((Edit.copyRun c i).run p).2.Linked off ∧ Tamer p ((Edit.copyRun c i).run p).2 := by
  rw [Edit.copyRun, Edit.run_bind, run_get]
  dsimp only
  split
  · exact ⟨hp, .refl p⟩
  · rw [Edit.run_map_ok]
    exact hp.copyBlocks _

theorem Linked.copyTail (hp : p.Linked off) (c : ChainId) (i : Int) :
    ((Edit.copyTail c i).run p).2.Linked off ∧ Tamer p ((Edit.copyTail c i).run p).2 := by
  rw [Edit.copyTail, Edit.run_bind, run_get]
  dsimp only
  split
  · exact ⟨hp, .refl p⟩
  · rw [Edit.run_map_ok]
    exact hp.copyBlocks _

/-! ## Destroying -/

/-- A block that is destroyed comes off its parent, if a slot holds it. -/
theorem Linked.destroyBlock (hp : p.Linked off) (b : BlockId) :
    (p.destroyBlock b).Linked (fun a i c parent => off a i c parent ∨ parent = none ∧ c = b ∧ p.Holds a i b) ∧
      Tamer p (p.destroyBlock b) := by
  obtain ⟨hrazed, -⟩ := razed_destroyBlock hp.toNested b
  obtain ⟨hlinked, htamer⟩ := hp.razed hrazed (pruned_destroyTree _ b p).toSub
  exact ⟨hlinked.weaken fun hold hc => hc.imp_right fun ⟨hcb, hnone⟩ => ⟨hnone, hcb, hcb ▸ (hrazed.holds hold).2⟩, htamer⟩

theorem Linked.destroyChain (hp : p.Linked off) (c : ChainId) :
    (p.destroyChain c).Linked off ∧ Tamer p (p.destroyChain c) := by
  let Kept (q : Program) : Prop := q.Linked off ∧ Tamer p q ∧ q.chains = p.chains
  have hfold : Kept ((p.chain c).foldl (fun p b => p.destroyBlock b) p) := by
    refine List.foldlRecOn (motive := Kept) _ _ ⟨hp, .refl p, rfl⟩ fun q ⟨hq, htamer, hchains⟩ b hb => ?_
    obtain ⟨hlinked, htamer'⟩ := hq.destroyBlock b
    refine ⟨hlinked.weaken fun _ hd => hd.resolve_right fun ⟨_, _, hold⟩ => ?_, htamer.trans htamer', ?_⟩
    · exact (hq.top (c := c) (by rwa [chain, hchains])).free _ _ hold
    · exact (razed_destroyBlock hq.toNested b).1.chains.trans hchains
  obtain ⟨hlinked, htamer, -⟩ := hfold
  obtain ⟨hemptied, htamer'⟩ := hlinked.moved (q := p.destroyChain c) rfl fun k b h =>
    ⟨k, (mem_chain_setChain h).resolve_left List.not_mem_nil⟩
  exact ⟨hemptied, htamer.trans htamer'⟩

/-! ## Slots -/

/-- A payload is put in a slot that was made for it, or nothing happens. -/
theorem Linked.replace {payload : Payload} (hp : p.Linked off) (name : Text) (b : BlockId) (i : Int)
    (hchild : ∀ c, payload = .block c → p.Detached c ∧ ¬ p.Reaches c b) :
    ((Edit.replace name payload.input b i payload).run p).2.Linked (fun a j c parent => off a j c parent ∨ payload = .block c) ∧
      Tamer p ((Edit.replace name payload.input b i payload).run p).2 := by
  rcases Edit.run_replace name payload.input b i payload p with ⟨f, hf⟩ | ⟨x, s, hx, hs, hinput, hrun⟩
  · rw [hf]
    exact ⟨hp.weaken fun _ => .inl, .refl p⟩
  · rw [hrun]
    refine hp.swap (s.cleared.hold payload) hx hs ?_ |>.imp_left fun h => ?_
    · simpa only [Slot.payload_hold] using hchild
    · simpa only [Slot.payload_hold] using h

theorem Linked.fill (hp : p.Linked off) (name : Text) (b : BlockId) (i : Int) (payload : Payload)
    (hleaf : ∀ c, payload ≠ .block c) :
    ((Edit.replace name payload.input b i payload).run p).2.Linked off ∧
      Tamer p ((Edit.replace name payload.input b i payload).run p).2 := by
  obtain ⟨hlinked, htamer⟩ := hp.replace name b i fun c hc => (hleaf c hc).elim
  exact ⟨hlinked.weaken fun _ hc => hc.resolve_right (hleaf _), htamer⟩

theorem Linked.nest (hp : p.Linked off) (b : BlockId) (i : Int) (hchild : p.Detached child) (hnot : ¬ p.Reaches child b) :
    ((Edit.nest b i child).run p).2.Linked off ∧ Tamer p ((Edit.nest b i child).run p).2 := by
  rw [Edit.nest, Edit.run_bind]
  rcases Edit.run_replace "SetBlock" .argument b i (.block child) p with ⟨f, hf⟩ | ⟨x, s, hx, hs, hinput, hrun⟩
  · rw [hf]
    exact ⟨hp, .refl p⟩
  · rw [hrun]
    dsimp only
    rw [Edit.run_modify]
    obtain ⟨hlinked, htamer⟩ := hp.swap (s.cleared.hold (.block child)) hx hs fun c hc => by
      rw [Slot.payload_hold] at hc
      cases hc
      exact ⟨hchild, hnot⟩
    have hoff : Program.Linked _ fun a j c parent => off a j c parent ∨ c = child :=
      hlinked.weaken fun _ hc => hc.imp_right fun hc => by rw [Slot.payload_hold] at hc; cases hc; rfl
    have hold : ((p.clearPayload x.registry s).setSlot b i.toNat (s.cleared.hold (.block child))).Holds b i.toNat child := by
      obtain ⟨-, hx'⟩ := hp.toNested.clearPayload hx (List.mem_of_getElem? hs) x.registry
      rw [hp.toNested.swap_eq hx hs, holds_set hx' (List.getElem?_eq_some_iff.mp hs).1, if_pos ⟨rfl, rfl⟩]
      exact Slot.payload_hold _ _
    obtain ⟨hdone, htamer'⟩ := hoff.attach hold
    exact ⟨hdone, htamer.trans htamer'⟩

theorem Linked.clear (hp : p.Linked off) (b : BlockId) (i : Int) :
    ((Edit.clear b i).run p).2.Linked off ∧ Tamer p ((Edit.clear b i).run p).2 := by
  rcases Edit.run_clear b i p with ⟨f, hf⟩ | ⟨x, s, hx, hs, hrun⟩
  · rw [hf]
    exact ⟨hp, .refl p⟩
  · rw [hrun]
    obtain ⟨hlinked, htamer⟩ := hp.swap _ hx hs fun c hc => (s.emptied_ne_block c hc).elim
    exact ⟨hlinked.weaken fun _ hc => hc.resolve_right (s.emptied_ne_block _), htamer⟩

/-- A block that goes out of its slot and off its parent is a root. -/
theorem Linked.unnest {x : Block} {s : Slot} {j : Nat} (hp : p.Linked off) (hx : p.blocks[b]? = some x)
    (hs : x.slots[j]? = some s) (hc : s.payload = .block c) :
    let q := p.setBlock b { x with slots := x.slots.set j s.taken }
    ∃ y, q.blocks[c]? = some y ∧
      let q' := q.setBlock c { y with parent := none }
      q'.Linked off ∧ Tamer p q' ∧ q'.Root c := by
  intro q
  have hold : p.Holds b j c := ⟨x, s, hx, hs, hc⟩
  obtain ⟨hset, hstray⟩ : q.Linked _ ∧ _ := hp.set hx hs fun _ h => by cases h
  -- the slot was the only one that held the block
  have hfree : q.Free c := by
    intro a k h
    rw [holds_set hx (List.getElem?_eq_some_iff.mp hs).1] at h
    split at h
    next => cases h
    next hne => exact hne (hp.single h hold)
  have hsize : q.blocks.size = p.blocks.size := Array.size_setIfInBounds
  have hlt : c < q.blocks.size := hsize ▸ hp.bounded hold.nests
  have hy : q.blocks[c]? = some q.blocks[c] := Array.getElem?_eq_getElem hlt
  have hparent := parentOf_setBlock hy { q.blocks[c] with parent := none }
  have hrelinked := relinked_setParent hy none
  obtain ⟨hlinked, htamer⟩ : Linked _ off ∧ _ := hset.repointed hrelinked rfl
    (fun {a k d} h => by
      have hne : d ≠ c := fun hdc => hfree a k (hdc ▸ h)
      rw [hparent, if_neg hne]
      exact (hset.parent h).imp_right fun hd => hd.resolve_right fun h => by cases h)
    fun {d} _ => by
      rw [hparent]
      split
      · exact .inl rfl
      · exact .inr rfl
  refine ⟨_, hy, hlinked, ⟨hsize ▸ htamer.size, fun {d} hd hd' => ?_⟩, ?_⟩
  · rcases hstray d (htamer.stray (hsize.symm ▸ hd) hd') with h | ⟨hdc, -⟩
    · exact h
    · have hcd : c = d := by
        rw [hc] at hdc
        cases hdc
        rfl
      exact (hd'.2 ((hparent d).trans (if_pos hcd.symm))).elim
  · exact ⟨Nat.lt_of_lt_of_le hlt htamer.size, hrelinked.free_iff.mpr hfree, (hparent c).trans (if_pos rfl)⟩

/-- A block that is taken out of its slot is a root, and nothing breaks down halfway. -/
theorem Linked.takeBlock (hp : p.Linked off) (ht : p.Typed) (b : BlockId) (i : Int) :
    let o := (Edit.takeBlock b i).run p
    o.2.Linked off ∧ Tamer p o.2 ∧ (∀ c, o.1 = .ok (some c) → o.2.Root c) ∧ ∀ f, o.1 = .error f → o.2 = p := by
  intro o
  rcases Edit.run_takeBlock b i p with ⟨r, hr, hrun⟩ | ⟨x, s, hx, hs, htype, htaken⟩
  · rw [show o = (r, p) from hrun]
    exact ⟨hp, .refl p, fun c h => (hr c h).elim, fun _ _ => rfl⟩
  · obtain ⟨c, hblock, hc⟩ := (ht.slots hx s (List.mem_of_getElem? hs)).block_of_type htype
    obtain ⟨y, hy, hlinked, htamer, hroot⟩ := hp.unnest hx hs hc
    rcases htaken with ⟨d, z, hd, hz, hrun⟩ | ⟨hnone, -⟩
    · cases hblock.symm.trans hd
      cases hy.symm.trans hz
      rw [show o = _ from hrun]
      refine ⟨hlinked, htamer, fun d hd => ?_, nofun⟩
      cases hd
      exact hroot
    · cases (hnone c hblock).symm.trans hy

end Program

/-! ## Calls -/

namespace Call

open Program

/-- The caller nests and lists only detached blocks, nests none in itself, and copies blocks for no parent. -/
def Careful (p : Program) : Call → Prop
  | nest b _ child => p.Detached child ∧ ¬ p.Reaches child b
  | copyBlock _ parent => parent = none
  | newChain bs | append _ bs => ∀ b ∈ bs, p.Detached b
  | _ => True

variable {p : Program} {off : BlockId → Nat → BlockId → Option BlockId → Prop}

/-- What can be off its parent after the call: what was, and a block that the call destroyed in its slot. -/
def loosened (p : Program) (c : Call) (before : BlockId → Nat → BlockId → Option BlockId → Prop) (a : BlockId) (i : Nat)
    (b : BlockId) (parent : Option BlockId) : Prop :=
  before a i b parent ∨ parent = none ∧ c = .destroyBlock b ∧ p.Holds a i b

/-- After a careful call, a program is still linked, and no block has gone astray. -/
theorem linked_edit {c : Call} (hp : p.Linked off) (ht : p.Typed) (hc : c.Careful p) :
    (c.edit.run p).2.Linked (c.loosened p off) ∧ Tamer p (c.edit.run p).2 := by
  have hkept : ∀ {q : Program}, q.Linked off ∧ Tamer p q → q.Linked (c.loosened p off) ∧ Tamer p q :=
    fun h => ⟨h.1.weaken fun _ => .inl, h.2⟩
  have hquiet : ∀ {α : Type} (e : Edit α), (e.run p).2.Linked off ∧ Tamer p (e.run p).2 →
      ((quiet e).run p).2.Linked (c.loosened p off) ∧ Tamer p ((quiet e).run p).2 := fun e h => run_quiet e p ▸ hkept h
  cases c with
  | destroyBlock b =>
    obtain ⟨hlinked, htamer⟩ := hp.destroyBlock b
    refine ⟨hlinked.weaken fun _ hd => hd.imp_right ?_, htamer⟩
    rintro ⟨hnone, rfl, hold⟩
    exact ⟨hnone, rfl, hold⟩
  | register r d => exact hkept (hp.of_eq rfl rfl)
  | newCustom r d => exact hkept (hp.of_eq rfl rfl)
  | newProcedure r name ps => exact hkept (hp.of_eq rfl rfl)
  | copyDefinition r h => exact hkept (hp.of_eq rfl rfl)
  | unregister r h => exact hkept (hp.of_eq rfl rfl)
  | retain r h => exact hkept (hp.of_eq rfl rfl)
  | release r h => exact hkept (hp.of_eq rfl rfl)
  | newBlock r h => exact hquiet _ (hp.grown (Edit.newBlock_grows r h hp).1)
  | copyBlock b parent => exact hquiet (Edit.copyBlock b parent) (hp.grown (Edit.copyTree_grows _ b parent hp).1)
  | destroyChain k => exact hquiet _ (hp.destroyChain k)
  | setText b i t => exact hquiet _ (hp.fill "SetText" b i (.text t) nofun)
  | setConst b i t => exact hquiet _ (hp.fill "SetConst" b i (.const t) nofun)
  | setDefinition b i h => exact hquiet _ (hp.fill "SetDefinition" b i (.definition h) nofun)
  | nest b i child => exact hquiet _ (hp.nest b i hc.1 hc.2)
  | takeBlock b i => exact hquiet _ ⟨(hp.takeBlock ht b i).1, (hp.takeBlock ht b i).2.1⟩
  | clear b i => exact hquiet _ (hp.clear b i)
  | newChain bs => exact hquiet _ (hp.newChain fun b hb => ⟨(hc b hb).there, (hc b hb).free⟩)
  | append k bs => exact hquiet _ (hp.append (fun b hb => ⟨(hc b hb).there, (hc b hb).free⟩) k)
  | insert dst src i => exact hquiet _ hp.insert
  | detach dst src i => exact hquiet _ hp.split
  | copyRun k i => exact hquiet _ (hp.copyRun k i)
  | copyTail k i => exact hquiet _ (hp.copyTail k i)

end Call

end BlockEngine
