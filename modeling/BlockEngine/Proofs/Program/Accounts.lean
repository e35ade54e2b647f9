/-
  BlockEngine.Proofs.Program.Accounts — every call keeps the books.

  Callers have a ledger of the references that they hold. A call is `Fair` if it drops, embeds and hands over
  only references on the ledger, takes from the palette only what is there, nests no block in itself and
  copies only live blocks; `settle` is the ledger after it.

  A program is `Sound` for a ledger if its registries count exactly what there is, blocks are well nested and
  the palette has each of its handles once.

  Proved:
  - `Call.sound_edit`: a fair call takes a program that is sound for the ledger to one that is sound for the
    ledger after it.
-/

import BlockEngine.Proofs.Program.Copying
import BlockEngine.Proofs.Program.Handles

namespace BlockEngine

namespace Program

/-- Counts are exact, blocks are well nested, and the palette has each of its handles once. -/
structure Sound (p : Program) (l : Ledger) : Prop where
  exact : p.Exact ∅ l
  nested : p.Nested
  palette : ∀ r, (p.registry r).palette.Nodup
  listed : ∀ r, ∀ h ∈ (p.registry r).palette, h.generation ≠ 0

variable {p q : Program} {l l' : Ledger} {r : RegistryId} {h : Handle} {b : BlockId} {x : Block} {s s' : Slot} {i : Nat}

theorem Sound.start (n : Nat) : (start n).Sound 0 where
  exact := .start n
  nested := .start n
  palette r := by simp [registry_start]
  listed r := by simp [registry_start]

theorem Sound.evolves {frees : Bool} (hp : p.Sound l) (hev : Program.Evolves frees false p q) (he : q.Exact ∅ l')
    (hn : q.Nested) : q.Sound l' := by
  have hpal : ∀ r, (q.registry r).palette = (p.registry r).palette := fun r =>
    Registry.palette_evolves (hev.registry r)
  exact ⟨he, hn, fun r => hpal r ▸ hp.palette r, fun r => hpal r ▸ hp.listed r⟩

theorem Sound.congr (hp : p.Sound l) (hl : ∀ r h, h.generation ≠ 0 → l r h = l' r h) : p.Sound l' :=
  ⟨hp.exact.congr hl, hp.nested, hp.palette, hp.listed⟩

theorem Sound.relinked (hp : p.Sound l) (hq : Relinked p q) : q.Sound l :=
  hp.evolves (hq.evolves : Program.Evolves false false p q) (hp.exact.relinked hq) (hp.nested.sub hq.sub)

/-! ## Registries -/

/-- An operation on a registry that keeps the palette trades some references for others. -/
theorem Sound.trade {frees : Bool} (hs hs' : List Handle) (hp : p.Sound (l + refs r hs)) (hr : r < p.registries.size)
    {x : Registry} (hev : Registry.Evolves frees false (p.registry r) x)
    (hx : ∀ {ext}, (p.registry r).Exact (Registry.plus ext hs) → x.Exact (Registry.plus ext hs')) :
    (p.setRegistry r x).Sound (l + refs r hs') :=
  hp.evolves (.setRegistry hev) (hp.exact.trade hs hs' hr (Registry.palette_evolves hev) hx)
    (hp.nested.sub (.of_eq rfl))

/-- An operation on a registry changes the palette. -/
theorem Sound.relist (hp : p.Sound l) (hr : r < p.registries.size) {x : Registry} (hl : ∀ r', r' ≠ r → l' r' = l r')
    (hx : x.Exact fun h => x.palette.count h + ∑ b ∈ Finset.range p.blocks.size \ ∅, p.refsOf r h b + l' r h)
    (hnodup : x.palette.Nodup) (hlisted : ∀ h ∈ x.palette, h.generation ≠ 0) : (p.setRegistry r x).Sound l' := by
  have hreg := fun r' => registry_setRegistry r r' x p
  refine ⟨hp.exact.setRegistry hr hl hx, hp.nested.sub (.of_eq rfl), fun r' => ?_, fun r' => ?_⟩ <;>
    rw [hreg] <;> split
  · exact hnodup
  · exact hp.palette r'
  · exact hlisted
  · exact hp.listed r'

theorem Sound.register {d : Definition} (hp : p.Sound (l + refs r d.children)) (hr : r < p.registries.size)
    (hroom : ((p.registry r).register d).2.Roomy) : (p.setRegistry r ((p.registry r).register d).2).Sound l := by
  have hreg := hp.exact r
  obtain ⟨hnone, hz⟩ := hreg.alloc_new (d := _) ⟨hroom.unworn, hroom.size⟩
  rw [outside_add] at hreg
  have hex := hreg.register hroom
  have hpal : ((p.registry r).register d).2.palette = (p.registry r).palette ++ [((p.registry r).register d).1] := by
    rw [← Registry.palette_evolves (Registry.alloc_evolves _ (p.registry r))]
    rfl
  change outside p ∅ _ r ((p.registry r).register d).1 = 0 at hnone
  change ((p.registry r).register d).1.generation ≠ 0 at hz
  generalize (p.registry r).register d = o at hex hpal hnone hz
  refine hp.relist hr (fun r' hr' => (add_refs_of_ne l _ hr').symm) (hex.congr fun h _ => ?_) ?_ ?_
  · rw [hpal, List.count_append]
    simp only [Registry.plus, outside]
    omega
  · rw [hpal]
    refine List.nodup_append.mpr ⟨hp.palette r, List.nodup_singleton _, ?_⟩
    rintro h hh h' hh' rfl
    cases List.mem_singleton.mp hh'
    have hpos := List.count_pos_iff.mpr hh
    simp only [outside] at hnone
    omega
  · rw [hpal]
    intro h hh
    rcases List.mem_append.mp hh with hh | hh
    · exact hp.listed r h hh
    · exact List.mem_singleton.mp hh ▸ hz

/-- The palette has a reference to each of its definitions, which the registry counts beside all others. -/
theorem Sound.unlisted (hp : p.Sound l) (hh : h ∈ (p.registry r).palette) :
    (p.registry r).Exact (Registry.plus (fun h' => ((p.registry r).palette.erase h).count h' +
      ∑ b ∈ Finset.range p.blocks.size \ ∅, p.refsOf r h' b + l r h') [h]) := by
  have hpos := List.count_pos_iff.mpr hh
  refine (hp.exact r).congr fun h' _ => ?_
  simp only [outside, Registry.plus, List.count_erase, List.count_singleton]
  by_cases hh' : h' = h
  · subst hh'
    simp only [beq_self_eq_true, if_true]
    omega
  · simp [Ne.symm hh']

theorem Sound.unregister (hp : p.Sound l) (hh : h ∈ (p.registry r).palette) :
    (p.setRegistry r ((p.registry r).unregister h).2).Sound l := by
  have hz := hp.listed r h hh
  have hreg := hp.unlisted hh
  obtain ⟨x, hx⟩ := hreg.holding hz (by simp only [Registry.plus, List.count_singleton_self]; omega)
  obtain ⟨n, -, hex⟩ := hreg.unregister hz
  have hpal : ((p.registry r).unregister h).2.palette = (p.registry r).palette.erase h := by
    rw [Registry.unregister, hx]
    exact Registry.palette_evolves (Registry.release_evolves h _)
  refine hp.relist (lt_size_of_holding hx) (fun _ _ => rfl) (by rw [hpal]; exact hex) ?_ ?_
  · rw [hpal]
    exact (hp.palette r).erase h
  · rw [hpal]
    exact fun h' hh' => hp.listed r h' (List.mem_of_mem_erase hh')

/-! ## Slots -/

theorem count_definitions_set {ss : List Slot} (hs : ss[i]? = some s) (s' : Slot) (h : Handle) :
    (definitions (ss.set i s')).count h + (definitions [s]).count h =
      (definitions ss).count h + (definitions [s']).count h := by
  induction ss generalizing i with
  | nil => simp at hs
  | cons t ss ih =>
    cases i with
    | zero =>
      simp only [List.getElem?_cons_zero, Option.some.injEq] at hs
      subst hs
      rw [List.set_cons_zero, definitions_cons s' ss, definitions_cons t ss, List.count_append, List.count_append]
      omega
    | succ i =>
      have h' := ih (by simpa using hs)
      rw [List.set_cons_succ, definitions_cons t (ss.set i s'), definitions_cons t ss, List.count_append,
        List.count_append]
      omega

/-- Clearing a slot leaves its block alone. -/
theorem Nested.clearPayload (hp : p.Nested) (hx : p.blocks[b]? = some x) (hs : s ∈ x.slots) (r : RegistryId) :
    Sub p (p.clearPayload r s) ∧ (p.clearPayload r s).blocks[b]? = some x := by
  unfold Program.clearPayload
  split
  · rename_i c hc
    have hnot : ¬p.Reaches c b := fun hr => hp.acyclic b (Relation.TransGen.head' ⟨x, hx, s, hs, hc⟩ hr)
    have hprune := pruned_destroyTree (p.blocks.size + 1) c p
    exact ⟨hprune.toSub, (hprune.frame hnot).trans hx⟩
  · exact ⟨.of_eq (blocks_drop _ _ _), by rw [blocks_drop, hx]⟩
  · exact ⟨.refl p, hx⟩

/-- What a slot holds is destroyed or dropped, while its block is set aside. -/
theorem Exact.clearPayload (he : p.Exact {b} (l + refs x.registry (definitions [s]))) (hp : p.Nested)
    (hx : p.blocks[b]? = some x) (hs : s ∈ x.slots) : (p.clearPayload x.registry s).Exact {b} l := by
  unfold Program.clearPayload
  split
  · rename_i c hc
    refine Exact.destroyTree (by simpa [definitions, hc, Payload.definition?] using he) hp fun d hd => ?_
    rw [Finset.mem_singleton]
    rintro rfl
    exact hp.acyclic d (Relation.TransGen.head' ⟨x, hx, s, hs, hc⟩ hd)
  · rename_i h hh
    exact Exact.drop (by simpa [definitions, hh, Payload.definition?] using he)
  · rename_i hnb hnd
    have hnone : s.payload.definition? = none := by
      cases hp : s.payload <;> simp_all [Payload.definition?]
    simpa [definitions, hnone] using he

/-- A slot is cleared and gets another payload. -/
theorem Nested.swap_eq (hp : p.Nested) (hx : p.blocks[b]? = some x) (hs : x.slots[i]? = some s) (s' : Slot) :
    (p.clearPayload x.registry s).setSlot b i s' =
      (p.clearPayload x.registry s).setBlock b { x with slots := x.slots.set i s' } := by
  rw [setSlot, (hp.clearPayload hx (List.mem_of_getElem? hs) _).2]

/-- The references in the new payload come from the ledger. -/
theorem Exact.swap (he : p.Exact ∅ (l + refs x.registry (definitions [s']))) (hp : p.Nested)
    (hx : p.blocks[b]? = some x) (hs : x.slots[i]? = some s) :
    ((p.clearPayload x.registry s).setSlot b i s').Exact ∅ l := by
  obtain ⟨hsub, -⟩ := hp.clearPayload hx (List.mem_of_getElem? hs) x.registry
  rw [hp.swap_eq hx hs]
  refine Exact.reveal (Exact.clearPayload ?_ hp hx (List.mem_of_getElem? hs)) (Finset.notMem_empty b)
    (Nat.lt_of_lt_of_eq (Array.getElem?_eq_some_iff.mp hx).1 hsub.size.symm)
  refine (he.hide (Finset.notMem_empty b) hx).congr fun r h _ => ?_
  have hset := count_definitions_set hs s' h
  simp only [Pi.add_apply, Block.refs, refs, List.count_cons]
  split <;> omega

/-- What is nested after that was nested before, or is in the new payload. -/
theorem Nested.nests_swap (hp : p.Nested) (hx : p.blocks[b]? = some x) (hs : x.slots[i]? = some s) (s' : Slot)
    {a c : BlockId} (hn : ((p.clearPayload x.registry s).setSlot b i s').Nests a c) :
    p.Nests a c ∨ a = b ∧ s'.payload = .block c := by
  obtain ⟨hsub, -⟩ := hp.clearPayload hx (List.mem_of_getElem? hs) x.registry
  rw [hp.swap_eq hx hs] at hn
  rcases nests_setBlock hn with ⟨rfl, t, ht, hc⟩ | ⟨-, hn⟩
  · rcases List.mem_or_eq_of_mem_set ht with ht | rfl
    · exact .inl ⟨x, hx, t, ht, hc⟩
    · exact .inr ⟨rfl, hc⟩
  · exact .inl (hsub.nests hn)

theorem Nested.size_swap (hp : p.Nested) (hx : p.blocks[b]? = some x) (hs : x.slots[i]? = some s) (s' : Slot) :
    ((p.clearPayload x.registry s).setSlot b i s').blocks.size = p.blocks.size := by
  rw [hp.swap_eq hx hs]
  exact Array.size_setIfInBounds.trans (hp.clearPayload hx (List.mem_of_getElem? hs) x.registry).1.size

end Program

namespace Edit

variable {p : Program} {b : BlockId} {i : Int}

theorem run_modify (f : Program → Program) (p : Program) : (modify f : Edit Unit).run p = (.ok (), f p) := rfl

/-- What is done with a result afterwards does not matter to the program. -/
theorem run_map_ok {α β : Type} (e : Edit α) (f : α → β) (p : Program) :
    ((do return f (← e) : Edit β).run p).2 = (e.run p).2 := by
  rw [run_bind]
  obtain ⟨a | a, q⟩ := e.run p <;> rfl

/-- A slot is there, or nothing happens. -/
theorem run_slot (p : Program) (b : BlockId) (i : Int) : (∃ f, (slot b i).run p = (.error f, p)) ∨
    ∃ x s, p.blocks[b]? = some x ∧ x.slots[i.toNat]? = some s ∧ (slot b i).run p = (.ok s, p) := by
  cases hx : p.blocks[b]? with
  | none =>
    refine .inl ⟨.error (.access .absent), ?_⟩
    rw [slot, run_bind, run_block_absent hx]
  | some x =>
    rw [slot, run_bind, run_block hx]
    dsimp only
    cases hs : (if 0 ≤ i then x.slots[i.toNat]? else none) with
    | none => exact .inl ⟨_, rfl⟩
    | some s =>
      refine .inr ⟨x, s, rfl, ?_, rfl⟩
      split at hs
      · exact hs
      · cases hs

/-- A payload is replaced, or nothing happens. -/
theorem run_replace (name : Text) (input : InputType) (b : BlockId) (i : Int) (payload : Payload) (p : Program) :
    (∃ f, (replace name input b i payload).run p = (.error f, p)) ∨
    ∃ x s, p.blocks[b]? = some x ∧ x.slots[i.toNat]? = some s ∧ s.input = input ∧
      (replace name input b i payload).run p =
        (.ok (), (p.clearPayload x.registry s).setSlot b i.toNat (s.cleared.hold payload)) := by
  rcases run_slot p b i with ⟨f, hf⟩ | ⟨x, s, hx, hs, hrun⟩
  · refine .inl ⟨f, ?_⟩
    rw [replace, run_bind, hf]
  · rw [replace, run_bind, hrun]
    dsimp only
    split
    · rename_i hinput
      refine .inr ⟨x, s, hx, hs, hinput, ?_⟩
      rw [run_bind, run_block hx]
      rfl
    · exact .inl ⟨_, rfl⟩

/-- A slot is cleared, or nothing happens. -/
theorem run_clear (b : BlockId) (i : Int) (p : Program) : (∃ f, (clear b i).run p = (.error f, p)) ∨
    ∃ x s, p.blocks[b]? = some x ∧ x.slots[i.toNat]? = some s ∧ (clear b i).run p =
      (.ok (), (p.clearPayload x.registry s).setSlot b i.toNat s.emptied) := by
  rcases run_slot p b i with ⟨f, hf⟩ | ⟨x, s, hx, hs, hrun⟩
  · refine .inl ⟨f, ?_⟩
    rw [clear, run_bind, hf]
  · refine .inr ⟨x, s, hx, hs, ?_⟩
    rw [clear, run_bind, hrun]
    dsimp only
    rw [run_bind, run_block hx]
    rfl

/-- A block is taken out of a slot that should hold one and, if it is there, left without a parent, or nothing
    happens. -/
theorem run_takeBlock (b : BlockId) (i : Int) (p : Program) :
    (∃ o, (∀ c, o ≠ .ok (some c)) ∧ (takeBlock b i).run p = (o, p)) ∨
    ∃ x s, p.blocks[b]? = some x ∧ x.slots[i.toNat]? = some s ∧ s.type = .block ∧
      let q := p.setBlock b { x with slots := x.slots.set i.toNat s.taken }
      (∃ c y, s.block = some c ∧ q.blocks[c]? = some y ∧
          (takeBlock b i).run p = (.ok (some c), q.setBlock c { y with parent := none })) ∨
        (∀ c, s.block = some c → q.blocks[c]? = none) ∧ ∃ f, (takeBlock b i).run p = (.error f, q) := by
  rcases run_slot p b i with ⟨f, hf⟩ | ⟨x, s, hx, hs, hrun⟩
  · refine .inl ⟨.error f, nofun, ?_⟩
    rw [takeBlock, run_bind, hf]
  · rw [takeBlock, run_bind, hrun]
    dsimp only
    split
    · rename_i ht
      refine .inr ⟨x, s, hx, hs, ht, ?_⟩
      rw [run_bind, run_modify, Program.setSlot, hx]
      dsimp only
      generalize p.setBlock b { x with slots := x.slots.set i.toNat s.taken } = q
      cases hc : s.block with
      | none => exact .inr ⟨nofun, _, rfl⟩
      | some c =>
        dsimp only
        rw [run_bind]
        cases hy : q.blocks[c]? with
        | none =>
          refine .inr ⟨fun d hd => ?_, _, by rw [run_block_absent hy]⟩
          cases hd
          exact hy
        | some y => exact .inl ⟨c, y, rfl, hy, by rw [run_block hy]; rfl⟩
    · exact .inl ⟨.ok none, nofun, rfl⟩

end Edit

/-! ## The caller's part -/

namespace Call

def copied (p : Program) : Call → List BlockId
  | copyBlock b _ => [b]
  | copyTail c i => (p.chain c).drop i.toNat
  | copyRun c i =>
    match Balance.runEnd (p.outline c) i with
    | .ok stop => ((p.chain c).drop i.toNat).take (stop - i.toNat)
    | .error _ => []
  | _ => []

/-- The caller drops, embeds and hands over only references that it holds, takes from the palette what is
    there, nests no block in itself, and copies live blocks. -/
def Fair (p : Program) (l : Ledger) : Call → Prop
  | register r d | newCustom r d => r < p.registries.size ∧ ∀ h, d.children.count h ≤ l r h
  | newProcedure r _ _ => r < p.registries.size
  | unregister r h => h ∈ (p.registry r).palette
  | release r h => 0 < l r h
  | setDefinition b _ h => h.isZero ∨ ∀ x, p.blocks[b]? = some x → 0 < l x.registry h
  | nest b _ child => child < p.blocks.size ∧ ¬p.Reaches child b
  | c => ∀ b ∈ c.copied p, p.Live b

def returned (p : Program) (c : Call) : List Handle :=
  match (c.edit.run p).1 with
  | .ok (some h) => [h]
  | _ => []

/-- The references that the caller holds after the call. -/
def settle (p : Program) (l : Ledger) (c : Call) : Ledger :=
  match c with
  | register r d => l - refs r d.children
  | newCustom r d => l - refs r d.children + refs r (c.returned p)
  | newProcedure r _ _ | copyDefinition r _ => l + refs r (c.returned p)
  | retain r h =>
    match ((p.registry r).retain h).1 with
    | .ok _ => l + refs r [h]
    | .error _ => l
  | release r h => l - refs r [h]
  | setDefinition b _ h =>
    match (c.edit.run p).1, p.blocks[b]? with
    | .ok _, some x => l - refs x.registry [h]
    | _, _ => l
  | _ => l

theorem run_quiet {α : Type} (e : Edit α) (p : Program) : ((quiet e).run p).2 = (e.run p).2 := by
  rw [quiet, Edit.run_bind]
  obtain ⟨a | a, q⟩ := e.run p <;> rfl

end Call

namespace Program

variable {p q : Program} {l : Ledger} {r : RegistryId} {h : Handle} {b : BlockId} {i : Int}

theorem Sound.grown (hp : p.Sound l) (hev : Program.Evolves false false p q) (he : q.Exact ∅ l)
    (hq : Extends p q) : q.Sound l := hp.evolves hev he (hp.nested.extends hq)

theorem Sound.destroyBlock (hp : p.Sound l) (b : BlockId) : (p.destroyBlock b).Sound l :=
  hp.evolves (evolves_destroyBlock b p) (hp.exact.destroyTree hp.nested fun _ _ => Finset.notMem_empty _)
    (hp.nested.sub (pruned_destroyTree _ b p).toSub)

theorem Sound.destroyChain (hp : p.Sound l) (c : ChainId) : (p.destroyChain c).Sound l := by
  have hfold : ((p.chain c).foldl (fun p b => p.destroyBlock b) p).Sound l :=
    List.foldlRecOn (motive := fun q : Program => q.Sound l) _ _ hp fun q hq b _ => hq.destroyBlock b
  exact hfold.relinked (.of_eq rfl rfl)

/-- A payload is replaced by one whose references come from the ledger, and which nests no block that contains
    the slot. -/
theorem Sound.replace {l' : Ledger} {x : Block} {s s' : Slot} {i : Nat} (hp : p.Sound l)
    (hx : p.blocks[b]? = some x) (hs : x.slots[i]? = some s)
    (hl : ∀ r h, h.generation ≠ 0 → l r h = (l' + refs x.registry (definitions [s'])) r h)
    (hnest : ∀ c, s'.payload = .block c → c < p.blocks.size ∧ ¬p.Reaches c b) :
    ((p.clearPayload x.registry s).setSlot b i s').Sound l' := by
  refine hp.evolves ((evolves_clearPayload _ _ _).trans (evolves_setSlot _ _ _ _))
    (Exact.swap (hp.exact.congr hl) hp.nested hx hs) ?_
  have hsize := hp.nested.size_swap hx hs s'
  have hnests := fun {a c : BlockId} => hp.nested.nests_swap (a := a) (c := c) hx hs s'
  cases hc : s'.payload with
  | block c =>
    refine hp.nested.linked (hnest c hc).1 (hnest c hc).2 hsize fun hn => ?_
    refine (hnests hn).imp_right fun ⟨ha, hd⟩ => ⟨ha, ?_⟩
    rw [hc] at hd
    cases hd
    rfl
  | _ =>
    refine hp.nested.sub ⟨hsize, fun hn => (hnests hn).resolve_right ?_⟩
    rintro ⟨-, hd⟩
    rw [hc] at hd
    cases hd

theorem sub_refs_add {l : Ledger} {hs : List Handle} (h : ∀ h, hs.count h ≤ l r h) : l - refs r hs + refs r hs = l := by
  funext r' h'
  simp only [Pi.add_apply, Pi.sub_apply, refs]
  split
  · rename_i hr
    subst hr
    have := h h'
    omega
  · rfl

theorem count_singleton_le (hh : 0 < l r h) (h' : Handle) : [h].count h' ≤ l r h' := by
  by_cases hh' : h = h'
  · subst hh'
    rw [List.count_singleton_self]
    exact hh
  · simp [hh']

/-- A payload without references is set, or nothing happens. -/
theorem Sound.run_replace {payload : Payload} (hp : p.Sound l) (name : Text) (input : InputType)
    (hd : payload.definition? = none) (hnest : ∀ c, payload = .block c → c < p.blocks.size ∧ ¬p.Reaches c b) :
    ((Edit.replace name input b i payload).run p).2.Sound l := by
  rcases Edit.run_replace name input b i payload p with ⟨f, hf⟩ | ⟨x, s, hx, hs, -, hrun⟩
  · rw [hf]
    exact hp
  · rw [hrun]
    exact hp.replace hx hs (fun r h _ => by simp [definitions, hd]) (by simpa only [Slot.payload_hold] using hnest)

theorem Sound.nest {child : BlockId} (hp : p.Sound l) (hc : child < p.blocks.size) (hnot : ¬p.Reaches child b) :
    ((Edit.nest b i child).run p).2.Sound l := by
  have hset : ((Edit.replace "SetBlock" .argument b i (.block child)).run p).2.Sound l :=
    hp.run_replace _ _ rfl fun c hc' => by
      cases hc'
      exact ⟨hc, hnot⟩
  rw [Edit.nest, Edit.run_bind]
  generalize (Edit.replace "SetBlock" .argument b i (.block child)).run p = o at hset
  obtain ⟨f | _, q⟩ := o
  · exact hset
  · exact hset.relinked (relinked_relink child (some b) q)

theorem Sound.clear (hp : p.Sound l) (ht : p.Typed) : ((Edit.clear b i).run p).2.Sound l := by
  rcases Edit.run_clear b i p with ⟨f, hf⟩ | ⟨x, s, hx, hs, hrun⟩
  · rw [hf]
    exact hp
  · rw [hrun]
    refine hp.replace hx hs (fun r h hz => ?_) fun c hc => (s.emptied_ne_block c hc).elim
    have hspent := (ht.slots hx s (List.mem_of_getElem? hs)).cleared
    have hne : s.cleared.definition ≠ h := by
      rintro rfl
      exact hz (by simpa [Handle.isZero] using hspent.undefined)
    cases hi : s.input <;>
      simp [definitions, Slot.emptied, Slot.payload, hi, SlotType.blank, Payload.definition?, refs, hne]

theorem Sound.takeBlock (hp : p.Sound l) : ((Edit.takeBlock b i).run p).2.Sound l := by
  rcases Edit.run_takeBlock b i p with ⟨o, -, ho⟩ | ⟨x, s, hx, hs, ht, htaken⟩
  · rw [ho]
    exact hp
  · let y : Block := { x with slots := x.slots.set i.toNat s.taken }
    have hset : (p.setBlock b y).Sound l := by
      refine hp.evolves (.of_eq rfl : Program.Evolves false false p (p.setBlock b y))
        (hp.exact.setBlock (Finset.notMem_empty b) hx fun r h _ => ?_) (hp.nested.sub (.setBlock hx fun d hd => ?_))
      · have hcount := count_definitions_set hs s.taken h
        have hnone : definitions [s] = [] := by
          cases hc : s.block <;> simp [definitions, Slot.payload, ht, hc, Payload.definition?]
        have hnone' : definitions [s.taken] = [] := rfl
        rw [hnone, hnone', List.count_nil] at hcount
        simp only [Block.refs, refs, y, List.count_cons]
        split <;> omega
      · obtain ⟨t, ht, hd⟩ := hd
        rcases List.mem_or_eq_of_mem_set ht with ht | rfl
        · exact ⟨t, ht, hd⟩
        · cases hd
    rcases htaken with ⟨c, z, -, hz, hrun⟩ | ⟨-, f, hrun⟩ <;> rw [hrun]
    · exact hset.relinked (relinked_setParent hz none)
    · exact hset

/-- Copies are made of live blocks. -/
theorem Sound.copied {bs : List BlockId} (hp : p.Sound l) (ht : p.Typed) (hlive : ∀ b ∈ bs, p.Live b)
    (hroom : ((Edit.copyBlocks bs).run p).2.Roomy) : ((Edit.copyBlocks bs).run p).2.Sound l := by
  obtain ⟨c, q, hrun, hq, hext⟩ := Edit.copyBlocks_yields hp.nested ht hlive hp.exact (.of_eq rfl) hroom
  have hev := Edit.evolves_copyBlocks bs p
  rw [hrun] at hev ⊢
  exact hp.grown hev hq hext

/-- A part of a chain is copied, or nothing happens. -/
theorem Sound.copyRun {c : ChainId} (hp : p.Sound l) (ht : p.Typed) (hlive : ∀ b ∈ (Call.copyRun c i).copied p, p.Live b)
    (hroom : ((Edit.copyRun c i).run p).2.Roomy) : ((Edit.copyRun c i).run p).2.Sound l := by
  rw [Edit.copyRun, Edit.run_bind, show (get : Edit Program).run p = (.ok p, p) from rfl] at hroom ⊢
  rw [Call.copied] at hlive
  dsimp only at hroom ⊢
  cases hstop : Balance.runEnd (p.outline c) i with
  | error e => exact hp
  | ok stop =>
    rw [hstop] at hlive hroom
    rw [Edit.run_map_ok] at hroom ⊢
    exact hp.copied ht hlive hroom

theorem Sound.copyTail {c : ChainId} (hp : p.Sound l) (ht : p.Typed) (hlive : ∀ b ∈ (Call.copyTail c i).copied p, p.Live b)
    (hroom : ((Edit.copyTail c i).run p).2.Roomy) : ((Edit.copyTail c i).run p).2.Sound l := by
  rw [Edit.copyTail, Edit.run_bind, show (get : Edit Program).run p = (.ok p, p) from rfl] at hroom ⊢
  dsimp only at hroom ⊢
  split at hroom <;> rename_i hi
  · rw [if_pos hi]
    exact hp
  · rw [if_neg hi, Edit.run_map_ok]
    rw [Edit.run_map_ok] at hroom
    exact hp.copied ht hlive hroom

theorem Sound.release (hp : p.Sound l) (hh : 0 < l r h) :
    (p.setRegistry r ((p.registry r).release h).2).Sound (l - refs r [h]) := by
  have hle := count_singleton_le hh
  by_cases hz : h.generation = 0
  · have hstale : (p.registry r).release h = (.error (.stale h), p.registry r) := by
      have hx : (p.registry r).holding? h = none := by simp [Registry.holding?, Handle.isZero, hz]
      simp [Registry.release, hx]
    rw [hstale, setRegistry_self]
    refine hp.congr fun r' h' hz' => ?_
    have hne : h ≠ h' := by
      rintro rfl
      exact hz' hz
    simp [refs, hne]
  · obtain ⟨x, hx⟩ := hp.exact.holding hz hh
    have hdone := Sound.trade [h] [] ((sub_refs_add hle).symm ▸ hp) (lt_size_of_holding hx)
      (Registry.release_evolves h _) fun he => by
        obtain ⟨n, -, hex⟩ := he.release hz
        exact hex.congr fun _ _ => rfl
    simpa using hdone

theorem Sound.setDefinition (hp : p.Sound l) (hh : h.isZero ∨ ∀ x, p.blocks[b]? = some x → 0 < l x.registry h) :
    ((Call.setDefinition b i h).edit.run p).2.Sound ((Call.setDefinition b i h).settle p l) := by
  have hquiet : (Call.setDefinition b i h).edit.run p =
      (Call.quiet (Edit.replace "SetDefinition" .definition b i (.definition h))).run p := rfl
  rw [Call.settle, hquiet, Call.quiet, Edit.run_bind]
  rcases Edit.run_replace "SetDefinition" .definition b i (.definition h) p with ⟨f, hf⟩ | ⟨x, s, hx, hs, -, hrun⟩
  · rw [hf]
    exact hp
  · rw [hrun, hx]
    refine hp.replace hx hs (fun r h' hz' => ?_) nofun
    show l r h' = (l - refs x.registry [h] + refs x.registry [h]) r h'
    rcases hh with hz | hh
    · have hne : h ≠ h' := by
        rintro rfl
        simp [Handle.isZero] at hz
        exact hz' hz
      simp [refs, hne]
    · rw [sub_refs_add (count_singleton_le (hh x hx))]

end Program

namespace Call

open Program

variable {p : Program} {l : Ledger}

/-- Every fair call keeps the books. -/
theorem sound_edit {c : Call} (hp : p.Sound l) (ht : p.Typed) (hc : c.Fair p l) (hroom : (c.edit.run p).2.Roomy) :
    (c.edit.run p).2.Sound (c.settle p l) := by
  cases c with
  | register r d =>
    exact Sound.register ((sub_refs_add hc.2).symm ▸ hp) hc.1 (Edit.roomy_setRegistry hc.1 hroom)
  | newCustom r d =>
    refine Sound.trade d.children _ ((sub_refs_add hc.2).symm ▸ hp) hc.1 (Registry.alloc_evolves d _) fun he => ?_
    exact he.alloc (Edit.roomy_setRegistry hc.1 hroom)
  | newProcedure r name ps =>
    refine Sound.trade [] _ (by simpa using hp) hc (Registry.newProcedure_evolves name ps _) fun he => ?_
    exact (he.congr fun _ _ => rfl).newProcedure (Edit.roomy_setRegistry hc hroom)
  | copyDefinition r h =>
    have hrun : ((copyDefinition r h).edit.run p) = (.ok ((p.registry r).copyDefinition h).1.toOption,
      p.setRegistry r ((p.registry r).copyDefinition h).2) := rfl
    rw [settle, returned]
    rw [hrun] at hroom ⊢
    cases hx : (p.registry r).holding? h with
    | none =>
      rw [Registry.copyDefinition_stale hx, setRegistry_self]
      simpa [Except.toOption] using hp
    | some x =>
      have hr := lt_size_of_holding hx
      obtain ⟨h', hok, -⟩ := (hp.exact r).copyDefinition hx
      rw [hok]
      refine Sound.trade [] [h'] (by simpa using hp) hr (Registry.copyDefinition_evolves h _) fun he => ?_
      obtain ⟨h'', hok', hex⟩ := he.copyDefinition hx
      cases hok.symm.trans hok'
      exact (hex (Edit.roomy_setRegistry hr hroom)).congr fun _ _ => rfl
  | unregister r h =>
    rw [edit, run_quiet]
    exact hp.unregister hc
  | retain r h =>
    rw [edit, run_quiet, settle]
    cases hx : (p.registry r).holding? h with
    | none =>
      rw [Edit.run_retain_stale hx]
      simpa [Registry.retain, hx] using hp
    | some x =>
      rw [Edit.run_retain hx]
      simp only [Registry.retain, hx]
      have hev : Registry.Evolves false false (p.registry r) ((p.registry r).setRefs h x (x.refs + 1)) :=
        .one (.count _ hx (Nat.succ_pos _))
      refine Sound.trade [] [h] (by simpa using hp) (lt_size_of_holding hx) hev fun he => ?_
      exact (he.congr fun _ _ => rfl).retain hx
  | release r h =>
    rw [edit, run_quiet]
    exact hp.release hc
  | newBlock r h =>
    rw [edit, run_quiet] at hroom ⊢
    obtain ⟨a, q, hrun, hq, hext⟩ := Edit.newBlock_yields hp.exact hroom
    have hev := Edit.evolves_newBlock r h p
    rw [hrun] at hev ⊢
    exact hp.grown hev hq hext
  | copyBlock b parent =>
    rw [edit, run_quiet] at hroom ⊢
    have hfuel := Nat.lt_succ_of_le (p.depth_le b)
    have hcopy : (Edit.copyBlock b parent).Yields p (Edit.Added p l) := .after_run (a := p) (q := p) rfl
      (Edit.copyTree_yields hp.nested ht (hc b (List.mem_singleton_self b)) hfuel hp.exact (.of_eq rfl))
    obtain ⟨a, q, hrun, hq⟩ := hcopy hroom
    have hev := Edit.evolves_copyBlock b parent p
    rw [hrun] at hev ⊢
    exact hp.grown hev hq.exact hq.grown
  | copyRun c i =>
    rw [edit, run_quiet] at hroom ⊢
    exact hp.copyRun ht hc hroom
  | copyTail c i =>
    rw [edit, run_quiet] at hroom ⊢
    exact hp.copyTail ht hc hroom
  | destroyBlock b =>
    rw [edit, run_quiet]
    exact hp.destroyBlock b
  | destroyChain c =>
    rw [edit, run_quiet]
    exact hp.destroyChain c
  | setText b i t =>
    rw [edit, run_quiet]
    exact hp.run_replace _ _ rfl fun _ h => by cases h
  | setConst b i t =>
    rw [edit, run_quiet]
    exact hp.run_replace _ _ rfl fun _ h => by cases h
  | setDefinition b i h => exact hp.setDefinition hc
  | nest b i child =>
    rw [edit, run_quiet]
    exact hp.nest hc.1 hc.2
  | takeBlock b i =>
    rw [edit, run_quiet]
    exact hp.takeBlock
  | clear b i =>
    rw [edit, run_quiet]
    exact hp.clear ht
  | newChain bs =>
    rw [edit, run_quiet]
    exact hp.relinked (Edit.relinks_newChain bs p)
  | append c bs =>
    rw [edit, run_quiet]
    exact hp.relinked (Edit.relinks_append c bs p)
  | insert dst src i =>
    rw [edit, run_quiet]
    exact hp.relinked (Edit.relinks_insert dst src i p)
  | detach dst src i =>
    rw [edit, run_quiet]
    exact hp.relinked (Edit.relinks_detach dst src i p)

end Call

end BlockEngine
