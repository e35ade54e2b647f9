/-
  BlockEngine.Proofs.Library.Conditional — the blocks that head the branches of an if group.

  The first branch of an if group is headed by a conditional, the others by continuations. All but
  a last one have a condition, which is their only declared argument. A head is called with its
  marker, the value of the branch before it, and what its condition comes to; once its body is
  closed it is called again, with what it yielded (`Definition.Heads`).

  Proved, with any fuel that suffices:
  - `answers_condition`: a head with one argument evaluates it once, and does what its native does then.
  - `answers_bare`: a head that is entered without its argument, or closed, evaluates nothing.
  - `gives_condition`: a head with a condition yields its truth value.
-/

import BlockEngine.Proofs.Library.Body
import BlockEngine.Proofs.Machine.Called

namespace BlockEngine

/-! ## Their code -/

/-- The definition is that of a standard block, up to what a program may change of it. -/
def Definition.Is (d : Definition) (id : Text) : Prop :=
  ∃ s, Library.standard.find? (·.id == id) = some s ∧
    d = { s with color := d.color, hidden := d.hidden, owner := d.owner }

def Proc.gives (v : Value) (skip : Bool) : Proc Value := if skip then Library.skipWith v else return v

/-- A block of the kind heads a branch that comes after one that yielded `prior` and was not taken, if
    it is not the first. It has a condition or does without. -/
inductive Definition.Heads (d : Definition) : Option Value → Bool → Native → Prop
  | first : d.Is "if" → Heads d none true Library.ifBlock
  | elseIf : d.Is "else_if" → Heads d (some (.ofBool false)) true Library.elseIfBlock
  | orElse : d.Is "else" → Heads d (some (.ofBool false)) false Library.elseBlock

namespace Definition

variable {d : Definition} {id : Text} {s : Definition}

theorem Is.eq (h : d.Is id) (hs : Library.standard.find? (·.id == id) = some s) :
    d = { s with color := d.color, hidden := d.hidden, owner := d.owner } := by
  obtain ⟨s', hs', hd⟩ := h
  obtain rfl := Option.some.inj (hs'.symm.trans hs)
  exact hd

namespace Heads

variable {prior : Option Value} {conditional : Bool} {native : Native} (h : d.Heads prior conditional native)
include h

theorem native_eq : d.native = some native := by
  cases h with
  | first h | elseIf h | orElse h =>
    rw [h.eq rfl]
    rfl

theorem role_eq : d.role = .plain := by
  cases h with
  | first h | elseIf h | orElse h =>
    rw [h.eq rfl]
    rfl

theorem opens : d.type.opens = true := by
  cases h with
  | first h | elseIf h | orElse h =>
    rw [h.eq rfl]
    rfl

theorem prior_eq : ∀ v ∈ prior, v = .ofBool false := by
  cases h with
  | first => exact fun _ hv => nomatch hv
  | elseIf | orElse => exact fun _ hv => (Option.some.inj hv).symm

theorem any_isOmitted : prior.any (·.isOmitted) = false := by
  cases h <;> rfl

/-- The only declared argument is the condition. -/
theorem declared : (d.inputs.filter (·.type.hasSlot)).map (·.type) = if conditional then [.argument] else [] := by
  cases h with
  | first h | elseIf h | orElse h =>
    rw [h.eq rfl]
    rfl

/-- A condition that holds lets the body run. -/
theorem tests (hc : conditional = true) (v : Value) :
    native (.ofMarker .opening :: (prior.toList ++ [v])) = .gives (.ofBool v.toBool) (!v.toBool) := by
  cases h with
  | first =>
    show (if v.toBool then _ else _) = Proc.gives _ (!v.toBool)
    cases v.toBool <;> rfl
  | elseIf =>
    show (if v.toBool then _ else _) = Proc.gives _ (!v.toBool)
    cases v.toBool <;> rfl
  | orElse => cases hc

theorem takes (hc : conditional = false) :
    native (.ofMarker .opening :: prior.toList) = .gives (.ofBool true) false := by
  cases h with
  | first | elseIf => cases hc
  | orElse => rfl

/-- After a branch that was not taken the next is tried. -/
theorem refused (hc : conditional = true) :
    native [.ofMarker .closing, .ofBool false] = .gives (.ofBool false) false := by
  cases h with
  | first | elseIf => rfl
  | orElse => cases hc

/-- After one that was taken the rest is skipped. -/
theorem taken :
    native [.ofMarker .closing, .ofBool true] = .gives (if conditional then .omitted else .nothing) false := by
  cases h <;> rfl

/-- A branch that is skipped is left as it was entered. -/
theorem skips (hp : prior ≠ none) (mark : Marker) :
    native [.ofMarker mark, .omitted] = .gives .omitted (mark == .opening) := by
  cases h with
  | first => exact absurd rfl hp
  | elseIf | orElse => cases mark <;> rfl

omit h in
theorem type_first (h : d.Heads none conditional native) : d.type = .control := by
  cases h with
  | first h =>
    rw [h.eq rfl]
    rfl

end Heads

end Definition

/-! ## Machines -/

namespace Machine

def holding (vs : List Value) (m : Machine) : Machine :=
  { m with exec.operands := vs.reverse ++ m.exec.operands }

end Machine

def Program.condition (p : Program) (b : BlockId) : Option Payload := do
  let x ← p.blocks[b]?
  let s ← x.slots[0]?
  return s.payload

namespace Work

open Filter (atTop)

/-- What a slot holds comes to a value, and leaves a machine. -/
inductive ComesTo (m : Machine) : Payload → Value → Machine → Prop
  | text (t : Text) : ComesTo m (.text t) (.ofText t) m
  | block {b : BlockId} {v : Value} {asked : Asked} {k : Machine} :
      (∀ᶠ n in atTop, evaluate n b (-1) .opening false none m = .done (.ok (v, asked)) k) → ComesTo m (.block b) v k

/-! ## Evaluation -/

theorem eventually_of_succ {P : Nat → Prop} (h : ∀ᶠ n in atTop, P (n + 1)) : ∀ᶠ n in atTop, P n := by
  rwa [← Filter.map_add_atTop_eq_nat 1, Filter.eventually_map]

variable {m k : Machine} {b : BlockId} {native : Native} {i : Nat} {mark : Marker} {bare skip : Bool}
  {prior : Option Value} {v : Value} {vs os : List Value}

theorem pushAll_apply (vs : List Value) {m : Machine}
    (h : m.exec.operands.length + vs.length ≤ m.exec.limits.operands) :
    pushAll vs m = .done () (m.holding vs) := by
  induction vs generalizing m with
  | nil => rfl
  | cons v vs ih =>
    rw [List.length_cons] at h
    have hpush : pushOperand v m = .done () { m with exec.operands := v :: m.exec.operands } :=
      if_pos (by omega)
    rw [pushAll, bind_apply, hpush]
    show pushAll vs _ = _
    rw [ih (by simp only [List.length_cons]; omega)]
    simp only [Machine.holding, List.reverse_cons, List.append_assoc, List.singleton_append]

/-- What a native does at once, in an evaluation: it yields a value, asks something of the walk, and leaves
    some control stack. -/
def Performs (proc : Proc Value) (e : EvalState) (m : Machine) (v : Value) (asked : Asked)
    (control : List ControlFrame) : Prop :=
  ∀ invoke journal, perform invoke proc { m with exec.eval := some e, journal := journal } =
    .done v
      { m with
        exec.eval := some { e with jump := asked.jump, skip := asked.skip }
        exec.control := control
        journal := journal }

/-- A native that only yields a value, and may suppress the body that is about to open. -/
theorem performs_gives {e : EvalState} (hjump : e.jump = none) (hnot : e.skip = false)
    (hskip : skip = true → e.canSkip = true) : Performs (.gives v skip) e m v ⟨none, skip⟩ m.exec.control := by
  intro invoke journal
  obtain ⟨block, index, canSkip, skip', jump, error⟩ := e
  dsimp only at hjump hnot hskip
  subst hjump hnot
  cases skip with
  | false => rfl
  | true =>
    obtain rfl := hskip rfl
    rfl

/-- A native is called on the operands above some others, and they are dropped. -/
theorem callNative_performs {invoke : Invoker} {e : EvalState} {asked : Asked} {control : List ControlFrame}
    (hm : m.exec.operands = vs ++ os)
    (h : Performs (native (vs.map m.storage.view).reverse) e m v asked control) :
    callNative invoke native e mark os.length m =
      .done (v, { e with jump := asked.jump, skip := asked.skip })
        (Machine.noting ⟨e.block, e.index, mark, (vs.map m.storage.view).reverse⟩
          { m with exec.operands := os, exec.control := control, storage := m.storage.releaseAll vs }) := by
  let call : NativeCall := ⟨e.block, e.index, mark, (vs.map m.storage.view).reverse⟩
  let k : Machine := { m with exec.control := control, journal := call :: m.journal }
  have hk : truncateOperands os.length k = _ := truncateOperands_append (m := k) hm
  unfold callNative
  rw [bind_apply, window_append hm]
  show (perform invoke (native (vs.map m.storage.view).reverse) >>= _)
    { m with exec.eval := some e, journal := call :: m.journal } = _
  rw [bind_apply, h]
  show (truncateOperands os.length >>= fun _ => Pure.pure _) k = _
  rw [bind_apply, hk]
  rfl

/-- A block is evaluated at a position, with any fuel that suffices: it yields a value, and asks something of
    the walk. -/
def Answers (b : BlockId) (i : Nat) (mark : Marker) (bare : Bool) (prior : Option Value) (m : Machine) (v : Value)
    (asked : Asked) (k : Machine) : Prop :=
  ∀ᶠ n in atTop, evaluate n b i mark bare prior m = .done (.ok (v, asked)) k

/-- With its operands pushed, a block that opens a body does what its native does. -/
theorem answers_of_pushed {asked : Asked} {control : List ControlFrame} (vs : List Value)
    (hnative : (m.program.kindOf b).native = some native) (hopens : (m.program.kindOf b).type.opens = true)
    (hpush : ∀ᶠ n in atTop, pushOperands (evaluate n) (m.program.kindOf b) b i mark bare prior m = .done (.ok ()) k)
    (hk : k.exec.operands = vs.reverse ++ m.exec.operands)
    (h : Performs (native (vs.map k.storage.view)) ⟨b, i, mark == .opening, false, none, none⟩ k v asked control) :
    Answers b i mark bare prior m v asked
      (Machine.noting ⟨b, i, mark, vs.map k.storage.view⟩
        { k with
          exec.operands := m.exec.operands
          exec.control := control
          storage := k.storage.releaseAll vs.reverse }) := by
  have hargs : (vs.reverse.map k.storage.view).reverse = vs.map k.storage.view := by
    rw [List.map_reverse, List.reverse_reverse]
  refine eventually_of_succ (hpush.mono fun n hn => ?_)
  rw [evaluate, evaluateWith_native hnative, bind_apply, hn]
  show (callNative (invoke n) native _ mark m.exec.operands.length >>= report _ i) k = _
  rw [hopens, decide_eq_true (Int.natCast_nonneg i), Bool.and_self, Bool.true_and, bind_apply,
    callNative_performs hk (by rw [hargs]; exact h), hargs]
  simp [report, Outcome.bind, Pure.pure, Work.pure]

/-! ## Operands of heads -/

theorem hidden_of_opens {d : Definition} (hr : d.role = .plain) (ho : d.type.opens = true) (mark : Marker)
    (prior : Option Value) : hidden d mark prior = .ofMarker mark :: prior.toList := by
  simp [hidden, hr, ho]

theorem scalar_head (h : ∀ v ∈ prior, v.IsScalar) (mark : Marker) :
    ∀ v ∈ Value.ofMarker mark :: prior.toList, v.IsScalar :=
  List.forall_mem_cons.mpr ⟨trivial, fun v hv => h v (Option.mem_toList.mp hv)⟩

/-- What a slot holds is evaluated, if it is a block, with the operands below left alone. -/
theorem ComesTo.carries {payload : Payload} (h : ComesTo m payload v k) (hc : m.exec.calls ≠ []) (hs : m.Scoped) :
    m.Carries k ∧ k.exec.eval = m.exec.eval ∧ k.exec.operands = m.exec.operands := by
  cases h with
  | text t => exact ⟨.refl m, rfl, rfl⟩
  | @block b _ _ _ h =>
    obtain ⟨n, hn⟩ := h.exists
    have hkeeps := evaluate_carries n b (-1) .opening false none hc hs
    unfold Meets at hkeeps
    rwa [hn] at hkeeps

/-- In a tidy region what a slot holds leaves the control stack alone. -/
theorem ComesTo.control_eq {p : Program} {R : Region p} (ht : R.Tidy) {b : BlockId} {y : Block} {s : Slot}
    (hb : R.blocks b) (hy : p.blocks[b]? = some y) (hs : s ∈ y.slots) {v : Value} (h : ComesTo m s.payload v k)
    (hm : m.Works p) :
    k.exec.control = m.exec.control := by
  generalize hpay : s.payload = payload at h
  cases h with
  | text t => rfl
  | @block b' _ asked _ h =>
    obtain ⟨n, hn⟩ := h.exists
    have hplain := ht.arguments hb hy hs hpay
    have hentered : (p.kindOf b').Entered (-1) False .opening false none [] := .plain hplain
    have hserves := (keeps_control (R := R) False False (.inr ht) n).1 (R.nested hb hy hs hpay) hentered
      (fun _ hv => nomatch hv) ⟨hm.calls, hm.scopes, hm.program, nofun⟩ (K := m.exec.control) rfl
    unfold Meets at hserves
    rw [hn] at hserves
    exact hserves.control_eq (fun h => h) hplain

/-- What the only slot of a block holds. -/
theorem condition_of_slots {p : Program} {b : BlockId} {y : Block} (hy : p.blocks[b]? = some y) {s : Slot}
    (hs : y.slots = [s]) : p.condition b = some s.payload := by
  rw [Program.condition, hy]
  show (y.slots[0]? >>= fun s => some s.payload) = _
  rw [hs]
  rfl

/-- What the only slot of a block holds is evaluated, and nothing else changes of the frames and bindings
    around it. -/
theorem ComesTo.level {p : Program} {R : Region p} (ht : R.Tidy) {b : BlockId} {y : Block} (hb : R.blocks b)
    (hy : p.blocks[b]? = some y) (hslots : y.slots.length = 1) {payload : Payload}
    (hpayload : p.condition b = some payload) (hm : m.Works p) {hidden : List Value} {v : Value}
    (h : ComesTo (m.holding hidden) payload v k) (hgo : k.Going) (s : Storage) :
    m.Level { k with exec.operands := m.exec.operands, storage := s } := by
  obtain ⟨slot, hslot⟩ := List.length_eq_one_iff.mp hslots
  obtain rfl := Option.some.inj ((condition_of_slots hy hslot).symm.trans hpayload)
  obtain ⟨hcarries, heval, -⟩ := h.carries hm.calls hm.scopes
  have hcontrol := h.control_eq ht hb hy (hslot ▸ List.mem_singleton_self slot) ⟨hm.program, hm.calls, hm.scopes⟩
  have hheld : m.Carries (m.holding hidden) := .of_eq rfl rfl (.refl _) rfl
  exact ⟨(hheld.trans hcarries).trans (.of_eq rfl rfl (.refl _) rfl), hcontrol, rfl, heval, hgo.cancelled,
    hgo.unfinished⟩

/-- A head has a slot for its condition, or none. -/
theorem slots_head {p : Program} {b : BlockId} {y : Block} {conditional : Bool} {native : Native} (hy : p.Placed b y)
    (h : (p.kindOf b).Heads prior conditional native) : y.slots.length = if conditional then 1 else 0 := by
  have hlength := congrArg List.length (hy.slots.trans h.declared)
  rw [List.length_map] at hlength
  rw [hlength]
  cases conditional <;> rfl

section

variable {x : Block} (hx : m.program.blocks[b]? = some x) (hrole : (m.program.kindOf b).role = .plain)
  (hopens : (m.program.kindOf b).type.opens = true) (hprior : ∀ v ∈ prior, v.IsScalar)
include hx hrole hopens

omit hx in
theorem pushOperands_head (hroom : m.exec.operands.length + (prior.toList.length + 1) ≤ m.exec.limits.operands)
    (eval : Evaluator) :
    pushOperands eval (m.program.kindOf b) b i mark bare prior m =
      pushDeclared eval (m.program.kindOf b) b i mark bare (m.holding (.ofMarker mark :: prior.toList)) := by
  rw [pushOperands_eq (fun h => by rw [hrole] at h; exact nomatch h.1), hidden_of_opens hrole hopens, bind_apply,
    pushAll_apply _ hroom]
  rfl

/-- The condition is evaluated above the marker and the value of the branch before. -/
theorem pushOperands_condition {payload : Payload} {c : Value} (hpayload : m.program.condition b = some payload)
    (hslots : x.slots.length = 1) (htyped : ∀ s ∈ x.slots, s.WellTyped)
    (hroom : m.exec.operands.length + (prior.toList.length + 1) < m.exec.limits.operands) (hc : m.exec.calls ≠ [])
    (hs : m.Scoped) (hcomes : ComesTo (m.holding (.ofMarker .opening :: prior.toList)) payload c k) :
    ∀ᶠ n in atTop, pushOperands (evaluate n) (m.program.kindOf b) b i .opening false prior m =
      .done (.ok ()) { k with exec.operands := c :: k.exec.operands } := by
  obtain ⟨hcarries, -, hoperands⟩ := hcomes.carries hc hs
  let m₁ := m.holding (.ofMarker .opening :: prior.toList)
  have hpush : pushOperand c k = .done () { k with exec.operands := c :: k.exec.operands } := by
    refine if_pos ?_
    rw [hoperands, hcarries.limits]
    simp only [Machine.holding, List.length_append, List.length_reverse, List.length_cons]
    omega
  have hcount : slotCount b m₁ = .done 1 m₁ := by
    rw [← hslots]
    exact slotCount_eq (m := m₁) hx
  obtain ⟨slot, hslot⟩ := List.length_eq_one_iff.mp hslots
  have hat : slotAt b 0 m₁ = .done (some slot) m₁ := by
    simp only [slotAt, read, m₁, Machine.holding, hx]
    show Outcome.done x.slots[0]? _ = _
    rw [hslot]
    rfl
  have hbegun : ∀ n, pushOperands (evaluate n) (m.program.kindOf b) b i .opening false prior m =
      pushSlots (evaluate n) (m.program.kindOf b) b i [0] m₁ := fun n => by
    rw [pushOperands_head hrole hopens hroom.le]
    show (slotCount b >>= fun n' => pushSlots (evaluate n) (m.program.kindOf b) b i (List.range n')) m₁ = _
    rw [bind_apply, hcount]
    rfl
  have hone : ∀ᶠ n in atTop, pushSlot (evaluate n) (m.program.kindOf b) i slot m₁ =
      .done (.ok ()) { k with exec.operands := c :: k.exec.operands } := by
    have hslot' : slot ∈ x.slots := hslot ▸ List.mem_singleton_self slot
    simp only [pushSlot_eq (htyped slot hslot'), (condition_of_slots hx hslot).symm.trans hpayload |> Option.some.inj]
    cases hcomes with
    | text t =>
      refine .of_forall fun n => ?_
      show (pushOperand (.ofText t) >>= fun _ => _) m₁ = _
      rw [bind_apply, hpush]
      rfl
    | block h =>
      refine h.mono fun n hn => ?_
      show (evaluate n _ (-1) .opening false none >>= _) m₁ = _
      rw [bind_apply, hn]
      show (pushOperand c >>= fun _ => _) k = _
      rw [bind_apply, hpush]
      rfl
  refine hone.mono fun n hn => ?_
  rw [hbegun, pushSlots, bind_apply, hat]
  show (pushSlot (evaluate n) (m.program.kindOf b) i slot >>= _) m₁ = _
  rw [bind_apply, hn]
  rfl

variable (hnative : (m.program.kindOf b).native = some native)
include hnative hprior

/-- A head that is entered or closed without a condition evaluates nothing. -/
theorem answers_bare {asked : Asked} {control : List ControlFrame}
    (hdeclared : (bare || mark == .closing) = true ∨ x.slots = [])
    (hroom : m.exec.operands.length + (prior.toList.length + 1) ≤ m.exec.limits.operands)
    (h : Performs (native (.ofMarker mark :: prior.toList)) ⟨b, i, mark == .opening, false, none, none⟩
      (m.holding (.ofMarker mark :: prior.toList)) v asked control) :
    Answers b i mark bare prior m v asked
      (Machine.noting ⟨b, i, mark, .ofMarker mark :: prior.toList⟩ { m with exec.control := control }) := by
  have hscalar := scalar_head hprior mark
  have hdone := answers_of_pushed (i := i) (.ofMarker mark :: prior.toList) hnative hopens (.of_forall fun n =>
    (pushOperands_head hrole hopens hroom _).trans (pushDeclared_none (m := m.holding _) hx hdeclared _ _ _))
    rfl
    (by rw [Storage.view_scalars hscalar]; exact h)
  have hfreed : m.storage.releaseAll (Value.ofMarker mark :: prior.toList).reverse = m.storage :=
    Storage.releaseAll_scalars fun v hv => hscalar v (List.mem_reverse.mp hv)
  unfold Machine.holding at hdone
  dsimp only at hdone
  rwa [Storage.view_scalars hscalar, hfreed] at hdone

/-- A head with a condition evaluates it. -/
theorem answers_condition {payload : Payload} {c : Value} {asked : Asked} {control : List ControlFrame}
    (hpayload : m.program.condition b = some payload) (hslots : x.slots.length = 1)
    (htyped : ∀ s ∈ x.slots, s.WellTyped)
    (hroom : m.exec.operands.length + (prior.toList.length + 1) < m.exec.limits.operands)
    (hc : m.exec.calls ≠ []) (hs : m.Scoped)
    (hcomes : ComesTo (m.holding (.ofMarker .opening :: prior.toList)) payload c k)
    (h : Performs (native (.ofMarker .opening :: (prior.toList ++ [k.storage.view c]))) ⟨b, i, true, false, none, none⟩
      { k with exec.operands := c :: k.exec.operands } v asked control) :
    Answers b i .opening false prior m v asked
      (Machine.noting ⟨b, i, .opening, .ofMarker .opening :: (prior.toList ++ [k.storage.view c])⟩
        { k with
          exec.operands := m.exec.operands
          exec.control := control
          storage := k.storage.release c }) := by
  obtain ⟨-, -, hoperands⟩ := hcomes.carries hc hs
  let hidden := Value.ofMarker .opening :: prior.toList
  have hscalar : ∀ v ∈ hidden, v.IsScalar := scalar_head hprior .opening
  have hargs : (hidden ++ [c]).map k.storage.view = hidden ++ [k.storage.view c] := by
    rw [List.map_append, Storage.view_scalars hscalar, List.map_singleton]
  have hdone := answers_of_pushed (hidden ++ [c]) hnative hopens
    (pushOperands_condition (i := i) hx hrole hopens hpayload hslots htyped hroom hc hs hcomes)
    (by rw [hoperands, List.reverse_append]; rfl) (by rw [hargs]; exact h)
  have hfreed : k.storage.releaseAll (hidden ++ [c]).reverse = k.storage.release c := by
    rw [List.reverse_append]
    exact Storage.releaseAll_scalars (s := k.storage.release c) fun v hv => hscalar v (List.mem_reverse.mp hv)
  dsimp only at hdone
  rwa [hargs, hfreed] at hdone

/-- So it yields what its native does. -/
theorem gives_bare (hdeclared : (bare || mark == .closing) = true ∨ x.slots = [])
    (hroom : m.exec.operands.length + (prior.toList.length + 1) ≤ m.exec.limits.operands)
    (hgives : native (.ofMarker mark :: prior.toList) = .gives v skip)
    (hskip : skip = true → mark = .opening) :
    Gives b i mark bare prior m v skip (m.noting ⟨b, i, mark, .ofMarker mark :: prior.toList⟩) := by
  refine answers_bare hx hrole hopens hprior hnative hdeclared hroom ?_
  rw [hgives]
  exact performs_gives rfl rfl fun hs => by rw [hskip hs]; rfl

/-- A head with a condition yields whether it holds. -/
theorem gives_condition {payload : Payload} {c : Value} (hpayload : m.program.condition b = some payload)
    (hslots : x.slots.length = 1) (htyped : ∀ s ∈ x.slots, s.WellTyped)
    (hroom : m.exec.operands.length + (prior.toList.length + 1) < m.exec.limits.operands)
    (hgives : ∀ c, native (.ofMarker .opening :: (prior.toList ++ [c])) = .gives (.ofBool c.toBool) (!c.toBool))
    (hc : m.exec.calls ≠ []) (hs : m.Scoped)
    (hcomes : ComesTo (m.holding (.ofMarker .opening :: prior.toList)) payload c k) :
    Gives b i .opening false prior m (.ofBool c.toBool) (!c.toBool)
      (Machine.noting ⟨b, i, .opening, .ofMarker .opening :: (prior.toList ++ [k.storage.view c])⟩
        { k with exec.operands := m.exec.operands, storage := k.storage.release c }) := by
  refine answers_condition hx hrole hopens hprior hnative hpayload hslots htyped hroom hc hs hcomes ?_
  rw [hgives, Storage.toBool_view]
  exact performs_gives rfl rfl fun _ => rfl

end

end Work

end BlockEngine
