/-
  BlockEngine.Proofs.Library.Region — programs of standard blocks, and what they leave alone.

  A region of a program is a set of chains of standard blocks, calls and placeholders, placed with
  all their arguments, that is closed under nesting and under calls: whatever runs from its chains
  stays in it. It is tidy where its chains nest and no block that opens a body stands in an argument.

  Work in a region meets values from outside only as arguments. Where all of these are scalars
  (`Plain`), nothing is ever shared or freed, and all that changes in the world around the
  interpreter is what was printed (`Quiet`).
-/

import BlockEngine.Program.Chain
import BlockEngine.Proofs.Library.Conduct
import BlockEngine.Proofs.Machine.Scope
import BlockEngine.Proofs.Program.Slots

namespace BlockEngine

/-! ## Placed blocks -/

/-- The block is a live one of a standard kind, with a slot for each input that takes one. -/
structure Program.Placed (p : Program) (b : BlockId) (x : Block) : Prop where
  block : p.blocks[b]? = some x
  kind : (p.kindOf b).IsStandard
  slots : x.slots.map (·.input) = ((p.kindOf b).inputs.filter (·.type.hasSlot)).map (·.type)
  typed : ∀ s ∈ x.slots, s.WellTyped

/-- Chains of standard blocks, calls and placeholders, with all that they nest and call. -/
structure Region (p : Program) where
  chains : ChainId → Prop
  blocks : BlockId → Prop
  listed : ∀ {c b}, chains c → b ∈ p.chain c → blocks b
  placed : ∀ {b}, blocks b → ∃ x, p.Placed b x
  nested : ∀ {b x s b'}, blocks b → p.blocks[b]? = some x → s ∈ x.slots → s.payload = .block b' → blocks b'
  called : ∀ {b c}, blocks b → (p.kindOf b).role = .call → (p.kindOf b).owner = some c → chains c

/-- Every chain nests, and no block that opens a body stands in an argument. -/
structure Region.Tidy {p : Program} (R : Region p) : Prop where
  validated : ∀ {c}, R.chains c → p.validate c = none
  arguments : ∀ {b x s b'}, R.blocks b → p.blocks[b]? = some x → s ∈ x.slots → s.payload = .block b' →
    (p.kindOf b').type.opens = false

def Slot.yields (s : Slot) : Bool :=
  match s.payload with
  | .definition _ => false
  | _ => true

theorem Slot.WellTyped.yields_eq {s : Slot} (h : s.WellTyped) :
    s.yields = (s.input == .argument || s.input == .dropdown) := by
  unfold Slot.yields
  cases hi : s.input with
  | argument =>
    rcases h.argument hi with ht | ht
    · rw [Slot.payload, ht]
      rfl
    · obtain ⟨b, -, hb⟩ := h.block_of_type ht
      rw [hb]
      rfl
  | dropdown =>
    rw [Slot.payload, h.dropdown hi]
    rfl
  | definition =>
    rw [Slot.payload, h.definition hi]
    rfl
  | text | image =>
    have hmade := h.made
    rw [hi] at hmade
    cases hmade

/-- What is pushed of a slot that is well typed. -/
theorem Work.pushSlot_eq {s : Slot} (h : s.WellTyped) (eval : Evaluator) (d : Definition) (index : Int) :
    pushSlot eval d index s = (match s.payload with
      | .text t | .const t => do
        pushOperand (.ofText t)
        return .ok ()
      | .block c => do
        match ← eval c (-1) .opening false none with
        | .error e => return .error e
        | .ok (v, _) =>
          pushOperand v
          return .ok ()
      | .definition _ => return .ok ()) := by
  unfold pushSlot
  cases ht : s.type with
  | text | const | definition =>
    rw [Slot.payload, ht]
  | block =>
    obtain ⟨b, hb, -⟩ := h.block_of_type ht
    obtain ⟨input, type, text, block, definition⟩ := s
    cases ht
    cases hb
    rfl
  | unknown => exact (h.type_ne_unknown ht).elim

/-- Each input that yields an operand has a slot that does. -/
theorem Program.Placed.operands {p : Program} {b : BlockId} {x : Block} (h : p.Placed b x) :
    (x.slots.filter Slot.yields).length = (p.kindOf b).arity := by
  have hy : x.slots.filter Slot.yields = x.slots.filter fun s => s.input == .argument || s.input == .dropdown :=
    List.filter_congr fun s hs => (h.typed s hs).yields_eq
  have hs := congrArg (fun l => (l.filter fun t => t == InputType.argument || t == .dropdown).length) h.slots
  simp only [List.filter_map, List.length_map, List.filter_filter] at hs
  rw [hy, Definition.arity]
  refine Eq.trans ?_ (hs.trans (congrArg List.length (List.filter_congr fun i _ => ?_)))
  · rfl
  · dsimp only [Function.comp]
    cases i.type <;> rfl

/-! ## A tidy program -/

/-- An entry chain that prints a line twice, which it joins of two texts. -/
def twice : Program :=
  { registries := #[{ kinds := Library.standard.toArray }]
    blocks := #[
      ⟨0, ⟨1, 1⟩, 1, [], none, []⟩,
      ⟨0, ⟨8, 1⟩, 8, [.of .argument (.text "2")], none, []⟩,
      ⟨0, ⟨10, 1⟩, 10, [.of .argument (.block 4)], none, []⟩,
      ⟨0, ⟨0, 1⟩, 0, [], none, []⟩,
      ⟨0, ⟨17, 1⟩, 17, [.of .argument (.text "tick"), .of .argument (.text "!")], some 2, []⟩]
    chains := #[[0, 1, 2, 3]] }

def twiceIdle : Machine := { program := twice, exec := { limits := .standard } }

theorem twice_placed {b : BlockId} (h : b < 5) : ∃ x, twice.Placed b x := by
  match b, h with
  | 0, _ => exact ⟨_, rfl, .of_index 1 (by decide) rfl, rfl, fun _ hs => (by cases hs)⟩
  | 1, _ => exact ⟨_, rfl, .of_index 8 (by decide) rfl, rfl, List.forall_mem_singleton.mpr (.of _ _ rfl)⟩
  | 2, _ => exact ⟨_, rfl, .of_index 10 (by decide) rfl, rfl, List.forall_mem_singleton.mpr (.of _ _ rfl)⟩
  | 3, _ => exact ⟨_, rfl, .of_index 0 (by decide) rfl, rfl, fun _ hs => (by cases hs)⟩
  | 4, _ =>
    exact ⟨_, rfl, .of_index 17 (by decide) rfl, rfl,
      List.forall_mem_cons.mpr ⟨.of _ _ rfl, List.forall_mem_singleton.mpr (.of _ _ rfl)⟩⟩

/-- The only block of the program that stands in an argument. -/
theorem twice_nested {b b' : BlockId} {x : Block} {s : Slot} (hb : b < 5) (hx : twice.blocks[b]? = some x)
    (hs : s ∈ x.slots) (hp : s.payload = .block b') : b' = 4 := by
  match b, hb with
  | 0, _ => cases hx; cases hs
  | 1, _ => cases hx; cases List.mem_singleton.mp hs; cases hp
  | 2, _ => cases hx; cases List.mem_singleton.mp hs; cases hp; rfl
  | 3, _ => cases hx; cases hs
  | 4, _ =>
    cases hx
    rcases List.mem_pair.mp hs with rfl | rfl <;> cases hp

def twiceRegion : Region twice where
  chains c := c = 0
  blocks b := b < 5
  listed := by
    rintro c b rfl hb
    exact (by decide : ∀ b ∈ twice.chain 0, b < 5) b hb
  placed := twice_placed
  nested hb hx hs hp := twice_nested hb hx hs hp ▸ by decide
  called {b c} hb hr _ := by
    match b, hb with
    | 0, _ => cases hr
    | 1, _ => cases hr
    | 2, _ => cases hr
    | 3, _ => cases hr
    | 4, _ => cases hr

theorem twice_tidy : twiceRegion.Tidy where
  validated := by
    rintro c rfl
    rfl
  arguments hb hx hs hp := twice_nested hb hx hs hp ▸ rfl

/-! ## Storage of scalars -/

namespace Storage

variable {s : Storage} {v : Value}

theorem release_scalar (h : v.IsScalar) : s.release v = s := by
  cases v with
  | scalar o x => unfold release; split <;> rfl
  | list o c items => exact h.elim

theorem releaseAll_scalars {vs : List Value} (h : ∀ v ∈ vs, v.IsScalar) : s.releaseAll vs = s := by
  induction vs with
  | nil => rfl
  | cons v vs ih =>
    rw [releaseAll, List.foldl_cons, release_scalar (h v List.mem_cons_self)]
    exact ih fun x hx => h x (List.mem_cons_of_mem _ hx)

theorem free_scalar (h : v.IsScalar) : s.free v = s := by
  cases v with
  | scalar o x => rw [free]; intros; contradiction
  | list o c items => exact h.elim

theorem view_scalar (h : v.IsScalar) : s.view v = v := by
  cases v with
  | scalar o x => rw [view]
  | list o c items => exact h.elim

theorem view_scalars {vs : List Value} (h : ∀ v ∈ vs, v.IsScalar) : vs.map s.view = vs :=
  (List.map_congr_left fun v hv => view_scalar (h v hv)).trans (List.map_id vs)

/-- What was freed of a value does not show in what it is taken for. -/
theorem toBool_view (v : Value) : (s.view v).toBool = v.toBool := by
  cases v with
  | scalar o x => rw [view]
  | list o c items =>
    rw [view, Value.toBool, Value.toBool]
    cases items with
    | nil => rw [viewItems]
    | cons v vs =>
      rw [viewItems]
      rfl

theorem isOmitted_view (v : Value) : (s.view v).isOmitted = v.isOmitted := by
  cases v with
  | scalar o x => rw [view]
  | list o c items =>
    rw [view]
    rfl

/-- Scalars are copied as they are, up to who owns them. -/
theorem copy_of_scalar (h : v.IsScalar) : s.copy v = (v.retagged, s) := by
  cases v with
  | scalar o x => simp [copy, view, Value.retagged, place]
  | list o c items => exact h.elim

theorem copy_scalar (h : v.IsScalar) : (s.copy v).1.IsScalar ∧ (s.copy v).2 = s := by
  cases v with
  | scalar o x => simp [copy, view, Value.retagged, place, Value.IsScalar]
  | list o c items => exact h.elim

theorem copyAll_scalars {vs : List Value} (h : ∀ v ∈ vs, v.IsScalar) :
    (∀ v ∈ (s.copyAll vs).1, v.IsScalar) ∧ (s.copyAll vs).2 = s := by
  induction vs with
  | nil => exact ⟨fun _ h => absurd h List.not_mem_nil, rfl⟩
  | cons v vs ih =>
    obtain ⟨hv, hs⟩ := copy_scalar (s := s) (h v List.mem_cons_self)
    obtain ⟨hvs, hs'⟩ := ih fun x hx => h x (List.mem_cons_of_mem _ hx)
    simp only [copyAll, hs]
    exact ⟨List.forall_mem_cons.mpr ⟨hv, hvs⟩, hs'⟩

theorem copyAll_of_scalars {vs : List Value} (h : ∀ v ∈ vs, v.IsScalar) :
    s.copyAll vs = (vs.map Value.retagged, s) := by
  induction vs with
  | nil => rfl
  | cons v vs ih =>
    simp only [copyAll, copy_of_scalar (h v List.mem_cons_self), ih fun x hx => h x (List.mem_cons_of_mem _ hx),
      List.map_cons]

end Storage

/-- A copy of a scalar is one. -/
theorem Value.retagged_scalar {v : Value} (h : v.IsScalar) : v.retagged.IsScalar := by
  cases v with
  | scalar o x => trivial
  | list o c items => exact h.elim

/-- A copy of a copy is the copy. -/
theorem Value.retagged_retagged {v : Value} (h : v.IsScalar) : v.retagged.retagged = v.retagged := by
  cases v with
  | scalar o x => rfl
  | list o c items => exact h.elim

theorem Work.hidden_view (d : Definition) (mark : Marker) (prior : Option Value) (s : Storage) :
    (hidden d mark prior).map s.view = hidden d mark (prior.map s.view) := by
  unfold hidden
  cases hr : d.role <;> cases d.type.opens <;> cases prior <;>
    simp [Storage.view, Value.ofInt, Value.ofChain, Value.ofMarker]

/-- How a block is entered does not depend on what was freed of the value it goes on from. -/
theorem Definition.Entered.viewed {d : Definition} {index : Int} {lenient : Prop} {mark : Marker} {bare : Bool}
    {prior : Option Value} {kept : List Value} (h : d.Entered index lenient mark bare prior kept) (s : Storage) :
    d.Entered index lenient mark bare (prior.map s.view) kept := by
  have hrep : ∀ v, d.repeats (s.view v) = d.repeats v := fun v => by
    rw [Definition.repeats, Definition.repeats, Storage.toBool_view]
  cases h with
  | plain h => exact .plain h
  | begins h hi => exact .begins h hi
  | resumes x h hi => exact .resumes x h hi
  | continues v h hi =>
    have hview : d.Entered index lenient .opening (s.view v).isOmitted (some (s.view v)) [] := .continues _ h hi
    rwa [Storage.isOmitted_view] at hview
  | closes v kept h hi hk => exact .closes _ kept h hi (by rw [hrep]; exact hk)
  | nested h => exact .nested h

/-! ## Plain machines -/

structure Machine.Plain (m : Machine) : Prop where
  operands : ∀ v ∈ m.exec.operands, v.IsScalar
  control : ∀ f ∈ m.exec.control, f.value.IsScalar
  bindings : ∀ x ∈ m.exec.bindings, x.value.IsScalar
  args : ∀ f ∈ m.exec.calls, ∀ v ∈ f.args, v.IsScalar
  results : ∀ f ∈ m.exec.calls, ∀ v ∈ f.result, v.IsScalar

/-- What stays as it is around the interpreter. -/
structure Machine.Quiet (m k : Machine) : Prop where
  storage : k.storage = m.storage
  host : k.host = { m.host with printed := k.host.printed, writes := k.host.writes }
  running : k.exec.running = m.exec.running
  cancelled : k.exec.cancelled = m.exec.cancelled

namespace Machine.Quiet

theorem refl (m : Machine) : m.Quiet m := ⟨rfl, rfl, rfl, rfl⟩

theorem trans {m k l : Machine} (h : m.Quiet k) (h' : k.Quiet l) : m.Quiet l := by
  refine ⟨h'.storage.trans h.storage, ?_, h'.running.trans h.running, h'.cancelled.trans h.cancelled⟩
  rw [h'.host, h.host]

end Machine.Quiet

/-- If asked for, all values are scalars and nothing but the output has changed since `m`. -/
def Machine.Calm (flat : Prop) (m k : Machine) : Prop := flat → k.Plain ∧ m.Quiet k

namespace Machine.Calm

variable {flat : Prop} {m k l : Machine}

theorem trans (h : m.Calm flat k) (h' : k.Calm flat l) : m.Calm flat l :=
  fun hf => ⟨(h' hf).1, (h hf).2.trans (h' hf).2⟩

/-- What does not touch the stacks, nor storage unless it frees lists. -/
theorem of_exec (h : m.Calm flat k) (he : l.exec = k.exec) (hs : flat → k.Plain → l.storage = k.storage)
    (hh : l.host = k.host) : m.Calm flat l := by
  intro hf
  obtain ⟨hp, hq⟩ := h hf
  refine ⟨⟨he ▸ hp.operands, he ▸ hp.control, he ▸ hp.bindings, he ▸ hp.args, he ▸ hp.results⟩,
    hq.trans ⟨hs hf hp, ?_, by rw [he], by rw [he]⟩⟩
  rw [hh]

end Machine.Calm

end BlockEngine
