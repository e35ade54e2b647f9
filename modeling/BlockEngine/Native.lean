/-
  BlockEngine.Native — what a block's native code can do.

  A native is a function from its operands to a procedure (`Proc`): a tree of requests to the
  engine and to the host, each with what to do with the reply. A native knows nothing but its
  operands and the replies it gets, so whatever holds of every `Proc` holds of every native.
-/

import BlockEngine.Error
import BlockEngine.Value.Basic

namespace BlockEngine

structure Counts where
  operands : Nat
  control : Nat
  bindings : Nat
  calls : Nat
  deriving DecidableEq, Repr

structure Glimpse where
  /-- Position in the chain, -1 inside an argument. -/
  index : Int
  /-- The kind of the block being evaluated. -/
  block : Option Text
  layer : Nat
  counts : Counts
  running : Bool
  cancelled : Bool

inductive Event where
  | entered (seen : Glimpse) (args : List Value)
  | logged (t : Text)
  | assigned (ok : Bool)
  | fetched (v : Option Value)
  | shown (v : Value)
  | cancelled (seen : Bool)
  | state (seen : Glimpse)

inductive Request where
  /-- Suppress the body of the control block being entered. -/
  | skipBody
  /-- Continue at this position of the chain. A negative one takes an earlier request back. -/
  | jumpTo (position : Int)
  /-- End the current invocation with this result. -/
  | finish (v : Value)
  /-- Abort the evaluation. The first error stands. -/
  | fail (e : Error)
  | declare (name : Text) (v : Value)
  | assign (name : Text) (v : Value)
  | fetch (name : Text)
  /-- Keep a value on the control stack. -/
  | pushData (v : Value)
  | popData
  /-- A copy of an argument of the current invocation. -/
  | argument (i : Int)
  /-- Run a chain as a procedure. -/
  | call (c : Option ChainId) (args : List Value)
  | glimpse
  /-- The value as it is now. -/
  | view (v : Value)
  | copy (v : Value)
  | newList (own : Ownership) (items : List Value)
  /-- The value in fresh storage. -/
  | place (v : Value)
  | free (v : Value)
  /-- Write a line to the host. -/
  | print (line : Text)
  | report (e : Event)
  /-- Count a call with the counter of this number. -/
  | tick (counter : Nat)
  | keep (name : Text) (v : Value)
  | kept (name : Text)
  | chainNamed (name : Text)
  /-- Wait until the host resumes the run. -/
  | pause
  /-- Cancel the run from within. -/
  | cancelRun (cause : CancelCause)

namespace Request

def Reply : Request → Type
  | .assign .. => Bool
  | .fetch _ => Option Value
  | .popData => Value
  | .argument _ => Value
  | .call .. => Value
  | .glimpse => Glimpse
  | .view _ => Value
  | .copy _ => Value
  | .newList .. => Value
  | .place _ => Value
  | .print _ => Option Error
  | .tick _ => Nat
  | .kept _ => Option Value
  | .chainNamed _ => Option ChainId
  | _ => Unit

end Request

/-- A procedure: it ends, breaks down, or asks and goes on with the reply. -/
inductive Proc (α : Type) where
  | done (a : α)
  | crash (f : Fault)
  | ask (r : Request) (go : r.Reply → Proc α)

namespace Proc

variable {α β : Type}

def bind (p : Proc α) (f : α → Proc β) : Proc β :=
  match p with
  | .done a => f a
  | .crash x => .crash x
  | .ask r go => .ask r fun reply => (go reply).bind f

instance : Monad Proc where
  pure := .done
  bind := bind

def skipBody : Proc Unit := .ask .skipBody .done

def jumpTo (position : Int) : Proc Unit := .ask (.jumpTo position) .done

def finish (v : Value) : Proc Unit := .ask (.finish v) .done

def fail (e : Error) : Proc Unit := .ask (.fail e) .done

def declare (name : Text) (v : Value) : Proc Unit := .ask (.declare name v) .done

def assign (name : Text) (v : Value) : Proc Bool := .ask (.assign name v) .done

def fetch (name : Text) : Proc (Option Value) := .ask (.fetch name) .done

def pushData (v : Value) : Proc Unit := .ask (.pushData v) .done

def popData : Proc Value := .ask .popData .done

def argument (i : Int) : Proc Value := .ask (.argument i) .done

def call (c : Option ChainId) (args : List Value) : Proc Value := .ask (.call c args) .done

def glimpse : Proc Glimpse := .ask .glimpse .done

def view (v : Value) : Proc Value := .ask (.view v) .done

def copy (v : Value) : Proc Value := .ask (.copy v) .done

def newList (own : Ownership) (items : List Value) : Proc Value := .ask (.newList own items) .done

def place (v : Value) : Proc Value := .ask (.place v) .done

def free (v : Value) : Proc Unit := .ask (.free v) .done

def print (line : Text) : Proc (Option Error) := .ask (.print line) .done

def report (e : Event) : Proc Unit := .ask (.report e) .done

def tick (counter : Nat) : Proc Nat := .ask (.tick counter) .done

def keep (name : Text) (v : Value) : Proc Unit := .ask (.keep name v) .done

def kept (name : Text) : Proc (Option Value) := .ask (.kept name) .done

def chainNamed (name : Text) : Proc (Option ChainId) := .ask (.chainNamed name) .done

def pause : Proc Unit := .ask .pause .done

def cancelRun (cause : CancelCause) : Proc Unit := .ask (.cancelRun cause) .done

/-- The operand `i`; reading past the last one breaks down. -/
def operand (args : List Value) (i : Nat) : Proc Value :=
  match args[i]? with
  | some v => .done v
  | none => .crash (.error (.access (.index i args.length)))

/-- The marker of a control value; no other value has one. -/
def marker (v : Value) : Proc Marker :=
  match v.marker? with
  | some m => .done m
  | none => .crash (.message "Value.Marker: not a control value")

end Proc

/-- The code of a block kind: the operands of an evaluation to what is done with them. -/
abbrev Native := List Value → Proc Value

end BlockEngine
