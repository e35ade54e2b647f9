/-
  BlockEngine.Proofs.Program.Slots — what slots hold.

  The payload of a slot is spread over four fields. A slot is `WellTyped` if its type is one that its
  input takes and the fields of other types are empty; a slot that was cleared and not filled again is
  `Spent`: it holds nothing, whatever its type. Clearing a slot leaves it so, and each operation on a
  slot completes that.

  - `typed_after`: after any calls, also those that break down, the slots of blocks are well typed, and
    those that destroyed blocks had are spent.

  A spent slot may be of type block without a block. No block has such a slot.
-/

import BlockEngine.Proofs.Program.Calls

namespace BlockEngine

def Payload.input : Payload → InputType
  | .text _ => .argument
  | .block _ => .argument
  | .const _ => .dropdown
  | .definition _ => .definition

namespace Slot

/-- The type of a slot is one that its input takes. -/
structure Suits (s : Slot) : Prop where
  made : s.input.hasSlot = true
  argument : s.input = .argument → s.type = .text ∨ s.type = .block
  dropdown : s.input = .dropdown → s.type = .const
  definition : s.input = .definition → s.type = .definition

/-- The slot holds what its type says and nothing else. -/
structure WellTyped (s : Slot) : Prop extends s.Suits where
  nested_iff : s.block.isSome ↔ s.type = .block
  definition_only : s.definition.isZero = false → s.type = .definition
  text_only : s.text ≠ [] → s.type = .text ∨ s.type = .const

/-- The slot holds nothing. -/
structure Spent (s : Slot) : Prop extends s.Suits where
  blockless : s.block = none
  undefined : s.definition.isZero = true
  textless : s.text = []

variable {s : Slot} {x : Payload}

theorem Suits.type_ne_unknown (h : s.Suits) : s.type ≠ .unknown := by
  obtain ⟨hmade, hargument, hdropdown, hdefinition⟩ := h
  intro hu
  cases hi : s.input <;> simp_all [InputType.hasSlot]

theorem Suits.hold (hmade : s.input = x.input) : (s.hold x).Suits := by
  constructor <;> rw [input_hold, hmade] <;> cases x <;> simp [Payload.input, InputType.hasSlot, Slot.hold]

/-- Nothing but the new payload is in a slot that was spent before. -/
theorem Spent.hold (h : s.Spent) (hx : s.input = x.input) : (s.hold x).WellTyped := by
  obtain ⟨-, hblock, hdefinition, htext⟩ := h
  refine ⟨.hold hx, ?_, ?_, ?_⟩ <;> cases x <;> simp [Slot.hold, hblock, hdefinition, htext]

theorem WellTyped.cleared (h : s.WellTyped) : s.cleared.Spent := by
  obtain ⟨⟨hmade, hargument, hdropdown, hdefinition⟩, hnested, hdefined, -⟩ := h
  have htype : s.cleared.type = s.type := by
    unfold Slot.cleared
    split <;> rfl
  refine ⟨?_, ?_, ?_, ?_⟩
  · constructor <;> rw [input_cleared] <;> simpa only [htype]
  all_goals
    unfold Slot.cleared
    cases ht : s.type <;> simp_all [Handle.isZero, Handle.zero]

/-- A slot of the same type with the same text that has a block if the type says so, and a definition only then. -/
theorem WellTyped.copied (h : s.WellTyped) {t : Slot} (hinput : t.input = s.input) (htype : t.type = s.type)
    (htext : t.text = s.text) (hblock : t.block.isSome ↔ s.type = .block)
    (hdefinition : t.definition.isZero = false → s.type = .definition) : t.WellTyped where
  made := hinput ▸ h.made
  argument := hinput ▸ htype ▸ h.argument
  dropdown := hinput ▸ htype ▸ h.dropdown
  definition := hinput ▸ htype ▸ h.definition
  nested_iff := htype ▸ hblock
  definition_only := htype ▸ hdefinition
  text_only := htext ▸ htype ▸ h.text_only

theorem emptied_suits (h : s.input.hasSlot = true) : s.emptied.Suits := by
  have hinput : s.emptied.input = s.input := input_cleared s
  refine ⟨hinput ▸ h, ?_, ?_, ?_⟩ <;> rw [hinput] <;> intro hi <;> simp [Slot.emptied, hi, SlotType.blank]

theorem WellTyped.emptied (h : s.WellTyped) : s.emptied.WellTyped := by
  obtain ⟨-, hblock, hdefinition, htext⟩ := h.cleared
  refine ⟨emptied_suits h.made, ?_, fun hd => ?_, fun ht => (ht htext).elim⟩
  · have hne : SlotType.blank s.input ≠ .block := by cases s.input <;> simp [SlotType.blank]
    simp [Slot.emptied, hblock, hne]
  · exact absurd (hdefinition.symm.trans hd) (by simp)

/-- Only slots for arguments hold blocks. -/
theorem WellTyped.taken (h : s.WellTyped) (ht : s.type = .block) :
    s.taken.WellTyped := by
  obtain ⟨⟨hmade, hargument, hdropdown, hdefinition⟩, -, hdefined, -⟩ := h
  refine ⟨⟨hmade, ?_, ?_, ?_⟩, ?_, ?_, ?_⟩ <;> simp_all [Slot.taken]

theorem WellTyped.of (i : InputType) (x : Payload) (h : i = x.input) : (Slot.of i x).WellTyped := by
  subst h
  refine ⟨.hold rfl, ?_, ?_, ?_⟩ <;> cases x <;> simp [Slot.of, Slot.hold, Handle.isZero, Handle.zero]

theorem block_of_payload (s : Slot) {b : BlockId} (h : s.payload = .block b) : s.block = some b := by
  unfold payload at h
  split at h <;> simp_all

theorem emptied_ne_block (s : Slot) (b : BlockId) : s.emptied.payload ≠ .block b := by
  unfold emptied payload
  cases s.input <;> simp [SlotType.blank]

theorem bare_ne_block (s : Slot) (b : BlockId) : s.bare.payload ≠ .block b := by
  unfold bare payload
  cases s.type <;> simp

/-- The block of a slot is there if its type says so. -/
theorem WellTyped.block_of_type (h : s.WellTyped) (ht : s.type = .block) : ∃ b, s.block = some b ∧ s.payload = .block b := by
  obtain ⟨b, hb⟩ := Option.isSome_iff_exists.mp (h.nested_iff.mpr ht)
  exact ⟨b, hb, payload_of_block ht hb⟩

end Slot

/-! ## Programs -/

namespace Program

variable {p q : Program} {b : BlockId} {x : Block}

/-- Slots of blocks are well typed, and those that destroyed blocks had hold nothing. -/
structure Typed (p : Program) : Prop where
  slots : ∀ {b : BlockId} {x : Block}, p.blocks[b]? = some x → ∀ s ∈ x.slots, s.WellTyped
  left : ∀ {b : BlockId} {x : Block}, p.blocks[b]? = some x → ∀ s ∈ x.left, s.Spent

theorem typed_start (n : Nat) : (start n).Typed := ⟨by simp [start], by simp [start]⟩

namespace Typed

theorem of_eq (hp : p.Typed) (hb : q.blocks = p.blocks) : q.Typed :=
  ⟨fun hx => hp.slots (by rwa [hb] at hx), fun hx => hp.left (by rwa [hb] at hx)⟩

theorem setBlock (hp : p.Typed) (hs : ∀ s ∈ x.slots, s.WellTyped) (hl : ∀ s ∈ x.left, s.Spent) : (p.setBlock b x).Typed := by
  have hcase : ∀ {c : BlockId} {y : Block}, (p.setBlock b x).blocks[c]? = some y → y = x ∨ p.blocks[c]? = some y := by
    intro c y hy
    rw [Program.setBlock, Array.getElem?_setIfInBounds] at hy
    split at hy
    · split at hy
      · exact .inl (Option.some.inj hy).symm
      · cases hy
    · exact .inr hy
  refine ⟨fun hy => ?_, fun hy => ?_⟩
  · rcases hcase hy with rfl | hy
    · exact hs
    · exact hp.slots hy
  · rcases hcase hy with rfl | hy
    · exact hl
    · exact hp.left hy

theorem addBlock (hp : p.Typed) (hs : ∀ s ∈ x.slots, s.WellTyped) (hl : x.left = []) : (p.addBlock x).2.Typed := by
  have hcase : ∀ {c : BlockId} {y : Block}, (p.addBlock x).2.blocks[c]? = some y → y = x ∨ p.blocks[c]? = some y := by
    intro c y hy
    rw [Program.addBlock, Array.getElem?_push] at hy
    split at hy
    · exact .inl (Option.some.inj hy).symm
    · exact .inr hy
  refine ⟨fun hy => ?_, fun hy => ?_⟩
  · rcases hcase hy with rfl | hy
    · exact hs
    · exact hp.slots hy
  · rcases hcase hy with rfl | hy
    · rw [hl]
      nofun
    · exact hp.left hy

theorem relinked (hp : p.Typed) (h : Relinked p q) : q.Typed := by
  refine ⟨fun {b x} hx => ?_, fun {b x} hx => ?_⟩ <;>
    obtain ⟨parent, hb⟩ := h.blocks b <;>
    rw [hb] at hx <;>
    obtain ⟨y, hy, rfl⟩ := Option.map_eq_some_iff.mp hx
  · exact hp.slots (x := y) hy
  · exact hp.left (x := y) hy

theorem drop (hp : p.Typed) (r : RegistryId) (h : Handle) : (p.drop r h).Typed := by
  unfold Program.drop
  split
  · exact hp
  · exact hp.of_eq rfl

theorem foldl {α : Type} {f : Program → α → Program} (hf : ∀ p a, p.Typed → (f p a).Typed) (as : List α) (hp : p.Typed) :
    (as.foldl f p).Typed := List.foldlRecOn (motive := Typed) _ _ hp fun p hp a _ => hf p a hp

/-- The slots of a destroyed block are left behind as clearing them leaves them. -/
theorem destroyTree (n : Nat) (b : BlockId) (hp : p.Typed) : (destroyTree n b p).Typed := by
  induction n generalizing b p with
  | zero => exact hp
  | succ n ih =>
    rw [Program.destroyTree]
    split
    · exact hp
    · rename_i x hx
      refine Typed.setBlock (.drop (.foldl (fun q s hq => ?_) _ hp) _ _) (List.forall_mem_nil _) fun s hs => ?_
      · split
        · exact ih _ hq
        · exact hq.drop _ _
        · exact hq
      · rcases List.mem_append.mp hs with hs | hs
        · exact hp.left hx s hs
        · obtain ⟨t, ht, rfl⟩ := List.mem_map.mp hs
          exact (hp.slots hx t ht).cleared

theorem destroyBlock (hp : p.Typed) (b : BlockId) : (p.destroyBlock b).Typed := hp.destroyTree _ b

theorem clearPayload (hp : p.Typed) (r : RegistryId) (s : Slot) : (p.clearPayload r s).Typed := by
  unfold Program.clearPayload
  split
  · exact hp.destroyBlock _
  · exact hp.drop _ _
  · exact hp

theorem setSlot {s : Slot} (hp : p.Typed) (hs : s.WellTyped) (b : BlockId) (i : Nat) : (p.setSlot b i s).Typed := by
  unfold Program.setSlot
  split
  · rename_i x hx
    refine hp.setBlock (fun t ht => ?_) (hp.left (x := x) hx)
    rcases List.mem_or_eq_of_mem_set ht with ht | rfl
    · exact hp.slots hx t ht
    · exact hs
  · exact hp

end Typed

end Program

/-! ## Operations -/

namespace Edit

variable {α β : Type} {Q : α → Prop} {Q' : β → Prop} {r : RegistryId} {b : BlockId} {i : Int}

/-- Whatever comes of it, an edit keeps slots as they should be, and this holds of its result. -/
def Types (e : Edit α) (Q : α → Prop) : Prop :=
  ∀ p, p.Typed → (e.run p).2.Typed ∧ ∀ a, (e.run p).1 = .ok a → Q a

theorem types_pure {a : α} (h : Q a) : Types (pure a) Q := fun _ hp => ⟨hp, fun _ ha => by cases ha; exact h⟩

theorem types_crash (f : Fault) : Types (crash f) Q := fun _ hp => ⟨hp, nofun⟩

theorem types_get : Types get Program.Typed := fun _ hp => ⟨hp, fun _ ha => by cases ha; exact hp⟩

theorem types_modify {f : Program → Program} (h : ∀ p, p.Typed → (f p).Typed) : Types (modify f) fun _ => True :=
  fun p hp => ⟨h p hp, fun _ _ => trivial⟩

theorem types_ofState {f : Program → α × Program} (h : ∀ p, p.Typed → (f p).2.Typed) : Types (ofState f) fun _ => True :=
  fun p hp => ⟨h p hp, fun _ _ => trivial⟩

theorem types_onRegistry (r : RegistryId) (f : Registry → α × Registry) : Types (onRegistry r f) fun _ => True :=
  types_ofState fun _ hp => hp.of_eq rfl

theorem Types.weaken {e : Edit α} (h : Types e Q) {R : α → Prop} (hR : ∀ a, Q a → R a) : Types e R :=
  fun p hp => ⟨(h p hp).1, fun a ha => hR a ((h p hp).2 a ha)⟩

theorem types_bind {e : Edit α} {f : α → Edit β} (he : Types e Q) (hf : ∀ a, Q a → Types (f a) Q') :
    Types (e >>= f) Q' := by
  intro p hp
  obtain ⟨hq, hresult⟩ := he p hp
  rw [run_bind]
  generalize e.run p = o at hq hresult
  obtain ⟨x | a, q⟩ := o
  · exact ⟨hq, nofun⟩
  · exact hf a (hresult a rfl) q hq

theorem types_mapM {f : α → Edit β} {as : List α} (hf : ∀ a ∈ as, Types (f a) Q') :
    Types (as.mapM f) fun bs => ∀ b ∈ bs, Q' b := by
  induction as with
  | nil => exact types_pure nofun
  | cons a as ih =>
    rw [List.mapM_cons]
    refine types_bind (hf a List.mem_cons_self) fun b hb => ?_
    refine types_bind (ih fun a ha => hf a (List.mem_cons_of_mem _ ha)) fun bs hbs => types_pure ?_
    exact List.forall_mem_cons.mpr ⟨hb, hbs⟩

theorem Relinks.types {e : Edit α} (he : e.Relinks) : e.Types fun _ => True :=
  fun p hp => ⟨hp.relinked (he p), fun _ _ => trivial⟩

theorem types_block (b : BlockId) : Types (block b) fun x => (∀ s ∈ x.slots, s.WellTyped) ∧ ∀ s ∈ x.left, s.Spent := by
  refine types_bind types_get fun p hp => ?_
  split
  · rename_i x hx
    exact types_pure ⟨hp.slots hx, hp.left hx⟩
  · exact types_crash _

theorem types_slot (b : BlockId) (i : Int) : Types (slot b i) Slot.WellTyped := by
  refine types_bind (types_block b) fun x hx => ?_
  split
  · rename_i s hs
    split at hs
    · exact types_pure (hx.1 s (List.mem_of_getElem? hs))
    · cases hs
  · exact types_crash _

theorem types_newSlot (r : RegistryId) (id : Text) {i : Input} (h : i.type.hasSlot = true) :
    Types (newSlot r id i) Slot.WellTyped := by
  unfold newSlot
  split
  · rename_i ht
    exact types_pure (.of _ _ ht)
  · rename_i ht
    exact types_bind (types_onRegistry _ _) fun _ _ => types_pure (.of _ _ ht)
  · rename_i hdropdown hdefinition
    refine types_pure (.of _ _ ?_)
    cases ht : i.type <;> simp_all [InputType.hasSlot, Payload.input]

theorem types_newBlock (r : RegistryId) (h : Handle) : Types (newBlock r h) fun _ => True := by
  refine types_bind (types_onRegistry _ _) fun o _ => ?_
  split
  · exact types_pure trivial
  · refine types_bind types_get fun p _ => ?_
    dsimp only
    split
    · exact types_crash _
    · refine types_bind (types_mapM fun i hi => types_newSlot r _ (List.mem_filter.mp hi).2) fun slots hslots => ?_
      exact types_bind (types_ofState fun p hp => hp.addBlock hslots rfl) fun _ _ => types_pure trivial

theorem types_copySlot {copy : BlockId → Edit BlockId} (hc : ∀ b, Types (copy b) fun _ => True) (r : RegistryId) {s : Slot}
    (hs : s.WellTyped) : Types (copySlot copy r s) Slot.WellTyped := by
  have hbare : s.type ≠ .block → s.bare.WellTyped := fun ht => hs.copied rfl rfl rfl (by simp [Slot.bare, ht]) nofun
  unfold copySlot
  split
  · rename_i ht
    split
    · exact types_crash _
    · exact types_bind (hc _) fun c _ => types_pure (hs.copied rfl rfl rfl (by simp [ht]) nofun)
  · rename_i ht
    have hne : s.type ≠ .block := by simp [ht]
    split
    · exact types_pure (hbare hne)
    · refine types_bind (types_onRegistry _ _) fun o _ => ?_
      split
      · exact types_pure (hs.copied rfl rfl rfl (by simp [Slot.bare, hne]) fun _ => ht)
      · exact types_crash _
  · rename_i hne _
    exact types_pure (hbare hne)

theorem types_copyTree (n : Nat) (b : BlockId) (parent : Option BlockId) : Types (copyTree n b parent) fun _ => True := by
  induction n generalizing b parent with
  | zero => exact types_crash _
  | succ n ih =>
    refine types_bind (types_block b) fun x hx => ?_
    refine types_bind (types_onRegistry _ _) fun o _ => ?_
    split
    · exact types_crash _
    · refine types_bind (types_ofState fun p hp => hp.addBlock nofun rfl) fun c _ => ?_
      refine types_bind (types_mapM fun s hs => types_copySlot (fun b => ih b _) _ (hx.1 s hs)) fun slots hslots => ?_
      exact types_bind (types_modify fun p hp => hp.setBlock hslots nofun) fun _ _ => types_pure trivial

theorem types_copyBlock (b : BlockId) (parent : Option BlockId) : Types (copyBlock b parent) fun _ => True :=
  types_bind types_get fun _ _ => types_copyTree _ b parent

theorem types_copyBlocks (bs : List BlockId) : Types (copyBlocks bs) fun _ => True :=
  types_bind (types_mapM fun b _ => types_copyBlock b none) fun _ _ => types_ofState fun _ hp => hp.of_eq rfl

theorem types_copyRun (c : ChainId) (i : Int) : Types (copyRun c i) fun _ => True := by
  refine types_bind types_get fun p _ => ?_
  split
  · exact types_pure trivial
  · exact types_bind (types_copyBlocks _) fun _ _ => types_pure trivial

theorem types_copyTail (c : ChainId) (i : Int) : Types (copyTail c i) fun _ => True := by
  refine types_bind types_get fun p _ => ?_
  dsimp only
  split
  · exact types_pure trivial
  · exact types_bind (types_copyBlocks _) fun _ _ => types_pure trivial

theorem types_replace (name : Text) (b : BlockId) (i : Int) (x : Payload) :
    Types (replace name x.input b i x) fun _ => True := by
  refine types_bind (types_slot b i) fun s hs => ?_
  split
  · rename_i hinput
    refine types_bind (types_block b) fun _ _ => types_modify fun p hp => ?_
    refine (hp.clearPayload _ s).setSlot (hs.cleared.hold ?_) b _
    rw [Slot.input_cleared, hinput]
  · exact types_crash _

theorem types_nest (b : BlockId) (i : Int) (child : BlockId) : Types (nest b i child) fun _ => True :=
  types_bind (types_replace "SetBlock" b i (.block child)) fun _ _ =>
    types_modify fun p hp => hp.relinked (Program.relinked_relink child _ p)

theorem types_takeBlock (b : BlockId) (i : Int) : Types (takeBlock b i) fun _ => True := by
  refine types_bind (types_slot b i) fun s hs => ?_
  split
  · rename_i ht
    refine types_bind (types_modify fun p hp => hp.setSlot (hs.taken ht) b _) fun _ _ => ?_
    split
    · exact types_crash _
    · refine types_bind (types_block _) fun x hx => ?_
      exact types_bind (types_modify fun p hp => hp.setBlock hx.1 hx.2) fun _ _ => types_pure trivial
  · exact types_pure trivial

theorem types_clear (b : BlockId) (i : Int) : Types (clear b i) fun _ => True := by
  refine types_bind (types_slot b i) fun s hs => ?_
  exact types_bind (types_block b) fun _ _ => types_modify fun p hp => (hp.clearPayload _ s).setSlot hs.emptied b _

end Edit

namespace Call

theorem types_quiet {α : Type} {e : Edit α} (he : e.Types fun _ => True) : (quiet e).Types fun _ => True :=
  Edit.types_bind he fun _ _ => Edit.types_pure trivial

theorem types_answer {α : Type} (r : RegistryId) (f : Registry → α × Registry) (g : α → Option Handle) :
    (do return g (← Edit.onRegistry r f) : Edit (Option Handle)).Types fun _ => True :=
  Edit.types_bind (Edit.types_onRegistry r f) fun _ _ => Edit.types_pure trivial

theorem types_edit (c : Call) : c.edit.Types fun _ => True := by
  cases c with
  | register r d => exact types_answer r _ some
  | newCustom r d => exact types_answer r _ some
  | newProcedure r name ps => exact types_answer r _ some
  | copyDefinition r h => exact types_answer r _ Except.toOption
  | unregister r h => exact types_quiet (Edit.types_onRegistry r _)
  | retain r h => exact types_quiet (Edit.types_onRegistry r _)
  | release r h => exact types_quiet (Edit.types_onRegistry r _)
  | newBlock r h => exact types_quiet (Edit.types_newBlock r h)
  | copyBlock b parent => exact types_quiet (Edit.types_copyBlock b parent)
  | destroyBlock b => exact types_quiet (Edit.types_modify fun p hp => hp.destroyBlock b)
  | setText b i t => exact types_quiet (Edit.types_replace _ b i (.text t))
  | setConst b i t => exact types_quiet (Edit.types_replace _ b i (.const t))
  | setDefinition b i h => exact types_quiet (Edit.types_replace _ b i (.definition h))
  | nest b i child => exact types_quiet (Edit.types_nest b i child)
  | takeBlock b i => exact types_quiet (Edit.types_takeBlock b i)
  | clear b i => exact types_quiet (Edit.types_clear b i)
  | newChain bs => exact types_quiet (Edit.relinks_newChain bs).types
  | append c bs => exact types_quiet (Edit.relinks_append c bs).types
  | insert dst src i => exact types_quiet (Edit.relinks_insert dst src i).types
  | detach dst src i => exact types_quiet (Edit.relinks_detach dst src i).types
  | copyRun c i => exact types_quiet (Edit.types_copyRun c i)
  | copyTail c i => exact types_quiet (Edit.types_copyTail c i)
  | destroyChain c =>
    refine types_quiet (Edit.types_modify fun p hp => ?_)
    exact (Program.Typed.foldl (fun p b hp => hp.destroyBlock b) (p.chain c) hp).of_eq rfl

end Call

/-- Slots are as they should be after any calls. -/
theorem Program.typed_after {p : Program} (hp : p.Typed) (calls : List Call) : (p.after calls).Typed := by
  induction calls generalizing p with
  | nil => exact hp
  | cons c rest ih => exact ih (c.types_edit p hp).1

end BlockEngine
