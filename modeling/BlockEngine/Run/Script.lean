/-
  BlockEngine.Run.Script — natives written as lists of actions.

  A script counts its calls, reports each unless it is quiet, and then does one of two lists of
  actions: one when it is entered, the other when it is re-entered with the closing marker. It
  yields what the last `result` action says.
-/

import BlockEngine.Native
import BlockEngine.Value.Coercion
import BlockEngine.Value.Storage

namespace BlockEngine

/-- A value as written down: chains by name, lists without storage. -/
inductive Literal where
  | scalar (own : Ownership) (s : Scalar)
  | chain (own : Ownership) (name : Option Text)
  | list (own : Ownership) (items : List Literal)

namespace Script

inductive Expr where
  | literal (l : Literal)
  /-- An operand itself, Nothing if there is none. -/
  | arg (i : Int)
  | kept (name : Text)
  | copy (e : Expr)
  | retag (own : Ownership) (e : Expr)
  | fetch (name : Text)
  | param (i : Int)
  | pop
  | call (chain : Option Text) (args : List Expr)
  | list (own : Ownership) (items : List Expr)
  | add (a b : Expr)

inductive Action where
  | log (t : Text)
  | skip
  | jump (i : Int)
  | jumpBy (n : Int)
  | finish (e : Expr)
  | fail (t : Text)
  | crash (t : Text)
  | declare (name : Text) (e : Expr)
  | assign (name : Text) (e : Expr)
  | fetch (name : Text)
  | push (e : Expr)
  | see (e : Expr)
  | keep (name : Text) (e : Expr)
  | free (name : Text)
  | result (e : Expr)
  | cond (e : Expr) (yes no : List Action)
  /-- Up to the `n`th call the one, later the other. -/
  | first (n : Int) (yes no : List Action)
  | seeCancelled
  | seeState
  | stop
  | cancel
  | pause

end Script

structure Script where
  opening : List Script.Action := []
  closing : List Script.Action := []
  quiet : Bool := false

mutual

def Literal.toValue : Literal → Value
  | .scalar o s => .scalar o s
  | .chain o _ => .scalar o (.chain none)
  | .list o items => .list o 0 (toValues items)

def Literal.toValues : List Literal → List Value
  | [] => []
  | l :: ls => l.toValue :: toValues ls

end

mutual

def Literal.make : Literal → Proc Value
  | .scalar o s => return .scalar o s
  | .chain o none => return .scalar o (.chain none)
  | .chain o (some name) => return .scalar o (.chain (← Proc.chainNamed name))
  | .list o items => do Proc.newList o (← makeAll items)

def Literal.makeAll : List Literal → Proc (List Value)
  | [] => return []
  | l :: ls => return (← l.make) :: (← makeAll ls)

end

namespace Script

open Proc

mutual

def Expr.eval (args : List Value) : Expr → Proc Value
  | .literal l => l.make
  | .arg i => return (if 0 ≤ i then args[i.toNat]? else none).getD .nothing
  | .kept name => return (← Proc.kept name).getD .nothing
  | .copy e => do Proc.copy (← e.eval args)
  | .retag own e => return (← e.eval args).withOwn own
  | .fetch name => return (← Proc.fetch name).getD .nothing
  | .param i => argument i
  | .pop => popData
  | .call c es => do
    let vs ← evalAll args es
    match c with
    | none => Proc.call none vs
    | some name => Proc.call (← chainNamed name) vs
  | .list own es => do newList own (← evalAll args es)
  | .add a b => do
    let x ← a.eval args
    let y ← b.eval args
    return .ofInt (x.toInt64 + y.toInt64)

def evalAll (args : List Value) : List Expr → Proc (List Value)
  | [] => return []
  | e :: es => return (← e.eval args) :: (← evalAll args es)

end

def freeKept (name : Text) : Proc Unit := do
  if let some v ← kept name then
    free v
    keep name v.freed

mutual

/-- Does one action of the `count`th call; the result so far, or the new one. -/
def Action.perform (args : List Value) (count : Nat) (result : Value) : Action → Proc Value
  | .log t => do
    report (.logged t)
    return result
  | .skip => do
    skipBody
    return result
  | .jump i => do
    jumpTo i
    return result
  | .jumpBy n => do
    jumpTo ((← glimpse).index + n)
    return result
  | .finish e => do
    Proc.finish (← e.eval args)
    return result
  | .fail t => do
    Proc.fail (.worded t)
    return result
  | .crash t => .crash (.message t)
  | .declare name e => do
    Proc.declare name (← e.eval args)
    return result
  | .assign name e => do
    let ok ← Proc.assign name (← e.eval args)
    report (.assigned ok)
    return result
  | .fetch name => do
    report (.fetched (← Proc.fetch name))
    return result
  | .push e => do
    pushData (← e.eval args)
    return result
  | .see e => do
    report (.shown (← view (← e.eval args)))
    return result
  | .keep name e => do
    Proc.keep name (← e.eval args)
    return result
  | .free name => do
    freeKept name
    return result
  | .result e => e.eval args
  | .cond e yes no => do
    if (← e.eval args).toBool then performAll args count result yes
    else performAll args count result no
  | .first n yes no =>
    if (count : Int) ≤ n then performAll args count result yes
    else performAll args count result no
  | .seeCancelled => do
    report (.cancelled (← glimpse).cancelled)
    return result
  | .seeState => do
    report (.state (← glimpse))
    return result
  | .stop => do
    cancelRun .stopped
    return result
  | .cancel => do
    cancelRun .cancelled
    return result
  | .pause => do
    Proc.pause
    return result

def performAll (args : List Value) (count : Nat) (result : Value) : List Action → Proc Value
  | [] => return result
  | a :: rest => do performAll args count (← a.perform args count result) rest

end

def isClosing (args : List Value) : Bool := args.findSome? (·.marker?) == some .closing

def native (s : Script) (counter : Nat) : Native := fun args => do
  let count ← tick counter
  if !s.quiet then
    report (.entered (← glimpse) args)
  performAll args count .nothing (if isClosing args then s.closing else s.opening)

end Script

end BlockEngine
