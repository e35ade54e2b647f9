/-
  BlockEngine.Machine.Work — what an interpreter does, as computations on its machine.

  A machine is an interpreter with what surrounds it: the program, the storage of lists and the
  host. `Work` ends with a result or with a fault, or is paused by a native until the host resumes
  it on a machine that may have changed meanwhile, or starves when its fuel runs out.
-/

import BlockEngine.Machine.Exec
import BlockEngine.Table
import BlockEngine.Value.Storage

namespace BlockEngine

structure Host where
  /-- Lines printed and not yet collected, the last first. -/
  printed : List Text := []
  /-- How many lines were ever printed. -/
  writes : Nat := 0
  /-- How many lines the host takes. -/
  capacity : Option Nat := none
  /-- Events not yet collected, the last first. -/
  events : List Event := []
  kept : Table Value := []
  /-- How often each counter was used. -/
  counters : Array Nat := #[]
  /-- Chains by name. -/
  chains : Table ChainId := []

def Host.output (h : Host) : Text := h.printed.reverse.flatMap (· ++ "\n")

/-- One call of a native: its block, the position there, how it was entered and its operands. -/
structure NativeCall where
  block : BlockId
  index : Int
  marker : Marker
  operands : List Value

structure Machine where
  program : Program := {}
  exec : Exec
  storage : Storage := {}
  host : Host := {}
  /-- Every call of a native so far, the last first. No computation reads it. -/
  journal : List NativeCall := []

inductive Outcome (α : Type) where
  | done (a : α) (m : Machine)
  | fault (f : Fault) (m : Machine)
  | paused (m : Machine) (resume : Machine → Outcome α)
  | starved (m : Machine)

namespace Outcome

variable {α β : Type}

/-- Goes on with a result, also with one that comes only after a pause. -/
def bind (o : Outcome α) (f : α → Machine → Outcome β) : Outcome β :=
  match o with
  | .done a m => f a m
  | .fault x m => .fault x m
  | .paused m resume => .paused m fun m => (resume m).bind f
  | .starved m => .starved m

def unpaused : Outcome α → Outcome α
  | .paused m resume => (resume m).unpaused
  | o => o

def attempt : Outcome α → Outcome (Except Fault α)
  | .done a m => .done (.ok a) m
  | .fault x m => .done (.error x) m
  | .paused m resume => .paused m fun m => (resume m).attempt
  | .starved m => .starved m

end Outcome

def Work (α : Type) : Type := Machine → Outcome α

namespace Work

variable {α β : Type}

@[inline] def pure (a : α) : Work α := fun m => .done a m

@[inline] def bind (w : Work α) (f : α → Work β) : Work β := fun m =>
  match w m with
  | .done a m => f a m
  | .fault x m => .fault x m
  | .paused m resume => .paused m fun m => (resume m).bind f
  | .starved m => .starved m

instance : Monad Work where
  pure := pure
  bind := bind

theorem bind_apply (w : Work α) (f : α → Work β) (m : Machine) : (w >>= f) m = (w m).bind f := by
  show bind w f m = _
  unfold bind
  cases w m <;> rfl

@[inline] def machine : Work Machine := fun m => .done m m

@[inline] def read (f : Machine → α) : Work α := fun m => .done (f m) m

@[inline] def modify (f : Machine → Machine) : Work Unit := fun m => .done () (f m)

@[inline] def crash (f : Fault) : Work α := fun m => .fault f m

@[inline] def starve : Work α := fun m => .starved m

@[inline] def pause : Work Unit := fun m => .paused m fun m => .done () m

@[inline] def attempt (w : Work α) : Work (Except Fault α) := fun m => (w m).attempt

@[inline] def mapExec (f : Exec → Exec) : Work Unit := modify fun m => { m with exec := f m.exec }

@[inline] def mapHost (f : Host → Host) : Work Unit := modify fun m => { m with host := f m.host }

@[inline] def onStorage (f : Storage → α × Storage) : Work α := fun m =>
  let (a, s) := f m.storage
  .done a { m with storage := s }

def release (v : Value) : Work Unit := modify fun m => { m with storage := m.storage.release v }

def view (v : Value) : Work Value := read fun m => m.storage.view v

/-! ## Stacks -/

def stackFault (stack : StackName) (op : StackOp) (capacity : Nat) : Fault :=
  .error (.stack ⟨stack, op, capacity⟩)

def pushOperand (v : Value) : Work Unit := fun m =>
  if m.exec.operands.length < m.exec.limits.operands then
    .done () { m with exec.operands := v :: m.exec.operands }
  else .fault (stackFault .operand .push m.exec.limits.operands) m

def pushControl (f : ControlFrame) : Work Unit := fun m =>
  if m.exec.control.length < m.exec.limits.control then
    .done () { m with exec.control := f :: m.exec.control }
  else .fault (stackFault .control .push m.exec.limits.control) m

def pushVariable (v : Variable) : Work Unit := fun m =>
  if m.exec.bindings.length < m.exec.limits.bindings then
    .done () { m with exec.bindings := v :: m.exec.bindings }
  else .fault (stackFault .variable .push m.exec.limits.bindings) m

def pushCall (f : CallFrame) : Work Unit := fun m =>
  if m.exec.calls.length < m.exec.limits.calls then
    .done () { m with exec.calls := f :: m.exec.calls }
  else .fault (stackFault .call .push m.exec.limits.calls) m

def truncateOperands (n : Nat) : Work Unit := modify fun m =>
  let k := m.exec.operands.length - n
  { m with
    exec.operands := m.exec.operands.drop k
    storage := m.storage.releaseAll (m.exec.operands.take k) }

def truncateControl (n : Nat) : Work Unit := modify fun m =>
  let k := m.exec.control.length - n
  { m with
    exec.control := m.exec.control.drop k
    storage := m.storage.releaseAll ((m.exec.control.take k).map (·.value)) }

/-- The operands above a number of them, the first pushed first. -/
def window (base : Nat) : Work (List Value) := read fun m =>
  ((m.exec.operands.take (m.exec.operands.length - base)).map m.storage.view).reverse

def popBody : Work (Nat × Value) := fun m =>
  match m.exec.control with
  | .body i v :: rest => .done (i, v) { m with exec.control := rest }
  | .data _ :: rest =>
    .fault (stackFault .control .frame m.exec.limits.control) { m with exec.control := rest }
  | [] => .fault (stackFault .control .pop m.exec.limits.control) m

def popData : Work Value := fun m =>
  match m.exec.control with
  | .data v :: rest => .done v { m with exec.control := rest }
  | _ => .fault (stackFault .control .frame m.exec.limits.control) m

def popCall : Work Unit := fun m =>
  match m.exec.calls with
  | _ :: rest => .done () { m with exec.calls := rest }
  | [] => .fault (stackFault .call .pop m.exec.limits.calls) m

/-- Frees the bindings of an invocation that were made at a layer or above, and all of deeper
    invocations. -/
def closeScope (depth layer : Nat) : Work Unit := modify fun m =>
  let gone := m.exec.bindings.takeWhile fun v => !Exec.outlives depth layer v
  { m with
    exec.bindings := m.exec.bindings.dropWhile fun v => !Exec.outlives depth layer v
    storage := m.storage.releaseAll (gone.map (·.value)) }

def drain : Work Unit := modify fun m =>
  { m with exec := m.exec.emptied, storage := m.storage.releaseAll m.exec.held }

end Work

end BlockEngine
