/-
  BlockEngine.Machine.Exec — the state of one interpreter.

  An interpreter has four stacks, each a list with its top first and a capacity of its own:
  operands that wait for a native, control frames of open bodies and native data, variable
  bindings, and the frames of chain invocations under way.
-/

import BlockEngine.Native
import BlockEngine.Program.Basic

namespace BlockEngine

structure Limits where
  operands : Nat
  control : Nat
  bindings : Nat
  calls : Nat
  deriving DecidableEq, Repr

namespace Limits

/-- Generous capacities: what overflows them runs away. -/
def standard : Limits := ⟨4096, 4096, 1024, 256⟩

def orStandard (asked : Int) (standard : Nat) : Nat := if asked ≤ 0 then standard else asked.toNat

def ofAsked (operands control bindings calls : Int) : Limits :=
  { operands := orStandard operands standard.operands
    control := orStandard control standard.control
    bindings := orStandard bindings standard.bindings
    calls := orStandard calls standard.calls }

end Limits

inductive ControlFrame where
  /-- An open body: the position of the block that opened it, and what that block yielded. -/
  | body (position : Nat) (value : Value)
  /-- What a native keeps there. -/
  | data (value : Value)

def ControlFrame.value : ControlFrame → Value
  | .body _ v => v
  | .data v => v

structure Variable where
  name : Text
  value : Value
  /-- How many invocations were under way. -/
  depth : Nat
  /-- How many bodies were open in the innermost of them. -/
  layer : Nat
  /-- How often it was bound anew. No computation reads it. -/
  rebound : Nat := 0

def Variable.bind (v : Value) (x : Variable) : Variable := { x with value := v, rebound := x.rebound + 1 }

structure CallFrame where
  args : List Value
  /-- How many bodies are open. -/
  layer : Nat := 0
  /-- The result, once a native asked to end the invocation. -/
  result : Option Value := none

/-- What a native may observe or change about its own evaluation. -/
structure EvalState where
  block : BlockId
  /-- Position in the chain, -1 inside an argument. -/
  index : Int
  /-- A control block is being entered at chain level. -/
  canSkip : Bool
  skip : Bool := false
  jump : Option Nat := none
  error : Option Error := none

structure Exec where
  limits : Limits
  operands : List Value := []
  control : List ControlFrame := []
  bindings : List Variable := []
  calls : List CallFrame := []
  /-- The evaluation whose native is at work. -/
  eval : Option EvalState := none
  /-- A run uses this interpreter. -/
  running : Bool := false
  /-- Why the run was cancelled; the first cause stands. -/
  cancelled : Option CancelCause := none

namespace Exec

def counts (x : Exec) : Counts :=
  ⟨x.operands.length, x.control.length, x.bindings.length, x.calls.length⟩

def layer (x : Exec) : Nat :=
  match x.calls with
  | f :: _ => f.layer
  | [] => 0

/-- The frame of the invocation at a depth, the outermost being at 1. -/
def frame? (x : Exec) (depth : Nat) : Option CallFrame :=
  if depth = 0 then none else x.calls[x.calls.length - depth]?

def mapFrame (depth : Nat) (f : CallFrame → CallFrame) (x : Exec) : Exec :=
  if depth = 0 then x else { x with calls := x.calls.modify (x.calls.length - depth) f }

def mapEval (f : EvalState → EvalState) (x : Exec) : Exec := { x with eval := x.eval.map f }

def cancel (cause : CancelCause) (x : Exec) : Exec :=
  { x with cancelled := some (x.cancelled.getD cause) }

/-- A binding that survives when the bodies of an invocation are closed down to a layer. -/
def outlives (depth layer : Nat) (v : Variable) : Bool :=
  decide (v.depth < depth) || (v.depth == depth && decide (v.layer < layer))

/-- The values that the stacks hold, in the order in which draining frees them. -/
def held (x : Exec) : List Value :=
  x.bindings.map (·.value) ++ x.operands ++ x.control.map (·.value) ++
    x.calls.filterMap (·.result)

def emptied (x : Exec) : Exec :=
  { x with operands := [], control := [], bindings := [], calls := [], eval := none }

end Exec

end BlockEngine
