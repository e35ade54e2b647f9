/-
  BlockEngine.Proofs.Structured.Interpreter — running a chain by recursion over its bracket tree.

  The reference for the walk: no cursor, no jumps, no suppression. A control block is entered with
  the opening marker, its body is run unless it asked to skip it, and it is entered again with the
  closing marker and the value that it yielded on entry; a jump repeats it, without its declared
  arguments if it closed with the value that leaves them out. What it closes with goes on to the
  continuation, or is dropped at the terminator. A run that was cancelled ends before the next block
  is entered or closes a body.

  The interpreter watches what natives do, and breaks down with the fault `breach` where one
  - asks for a jump and is not a control block that closes its body, or asks for one to any other
    position than its own;
  - changes the control stack and is not a control block;
  - is a control block and keeps more than one value there on entry, or any on closing unless it
    jumps, or more than one where it does, or takes what is not its own;
  and where the bodies of a chain that is called do not nest.
-/

import BlockEngine.Proofs.Machine.Invocation
import BlockEngine.Proofs.Program.Bracket

namespace BlockEngine

/-! ## Comparing frames -/

mutual

def Value.decEq : (a b : Value) → Decidable (a = b)
  | .scalar o s, .scalar o' s' => decidable_of_iff (o = o' ∧ s = s') (by simp)
  | .scalar .., .list .. => isFalse nofun
  | .list .., .scalar .. => isFalse nofun
  | .list o c vs, .list o' c' vs' =>
    have := Value.decEqAll vs vs'
    decidable_of_iff (o = o' ∧ c = c' ∧ vs = vs') (by simp)

def Value.decEqAll : (as bs : List Value) → Decidable (as = bs)
  | [], [] => isTrue rfl
  | [], _ :: _ => isFalse nofun
  | _ :: _, [] => isFalse nofun
  | a :: as, b :: bs =>
    have := Value.decEq a b
    have := Value.decEqAll as bs
    decidable_of_iff (a = b ∧ as = bs) (by simp)

end

instance : DecidableEq Value := Value.decEq

deriving instance DecidableEq for ControlFrame

/-- The control stack as a block may leave it that found `before` there: it keeps at most one
    value. -/
def keepsAtMostOne (before : List ControlFrame) : List ControlFrame → Bool
  | .data v :: rest => rest == before || .data v :: rest == before
  | fs => fs == before

namespace Structured

open Work

/-- How a run of blocks comes out: it goes on, or the invocation is over. -/
inductive Flow where
  | on
  | stop (error : Option Error)

/-- How a branch comes out that was entered and closed. -/
inductive Pass where
  | through (v : Value)
  /-- It is to be repeated, with its declared arguments or without. -/
  | again (bare : Bool)
  | stop (error : Option Error)

/-- Breaks down unless what a native did is in order. -/
def watch (breach : Fault) (ok : Bool) : Work Unit := if ok then return () else crash breach

/-- Does the work unless the run was cancelled. -/
def unlessCancelled {α : Type} (stop : Option Error → α) (w : Work α) : Work α := do
  match ← read (·.exec.cancelled) with
  | some cause => return stop (some (.cancelled cause))
  | none => w

section

variable (eval : Evaluator) (breach : Fault) (depth : Nat)

def visit (b : BlockId) (i : Nat) (mark : Marker) (bare : Bool) (prior : Option Value) :
    Work (Except (Option Error) (Value × Asked)) := do
  match ← eval b i mark bare prior with
  | .error e => return .error (some e)
  | .ok (v, asked) =>
    if ← isFinished depth then
      release v
      return .error none
    else return .ok (v, asked)

def single (b : BlockId) (i : Nat) : Work Flow := unlessCancelled .stop do
  let before ← read (·.exec.control)
  match ← visit eval depth b i .opening false none with
  | .error e => return .stop e
  | .ok (v, asked) =>
    watch breach (asked.jump.isNone && (← read (·.exec.control)) == before)
    release v
    return .on

/-- Enters a block again, whose body is closed, with what it yielded. Only a control block (`own`)
    may jump, and keep a value then on top of what was `outside` its group. -/
def conclude (own : Bool) (outside : List ControlFrame) (b : BlockId) (i : Nat) (v : Value) : Work Pass := do
  match ← visit eval depth b i .closing true (some v) with
  | .error e => return .stop e
  | .ok (v, asked) =>
    let after ← read (·.exec.control)
    match asked.jump with
    | none =>
      watch breach (after == outside)
      return .through v
    | some j =>
      watch breach (own && j == i && keepsAtMostOne outside after)
      release v
      return .again v.isOmitted

/-- Enters a block that opens a body, runs the body and closes it. -/
def branch (own : Bool) (outside : List ControlFrame) (b : BlockId) (i : Nat) (bare : Bool)
    (prior : Option Value) (body : Work Flow) : Work Pass := do
  let before ← read (·.exec.control)
  match ← visit eval depth b i .opening bare prior with
  | .error e => return .stop e
  | .ok (v, asked) =>
    let inside ← read (·.exec.control)
    watch breach (asked.jump.isNone && (inside == before || own && keepsAtMostOne before inside))
    let layer ← openBody depth i v
    match ← (if asked.skip then return .on else body) with
    | .stop e => return .stop e
    | .on => unlessCancelled .stop do
      let _ ← takeBody depth layer
      conclude eval breach depth own outside b i v

/-- Repeats a branch as often as it asks for; the number bounds the passes. -/
def passes (pass : Nat → Bool → Work Pass) : Nat → Bool → Work (Except (Option Error) Value)
  | 0, _ => starve
  | n + 1, bare => do
    match ← pass n bare with
    | .through v => return .ok v
    | .again bare => passes pass n bare
    | .stop e => return .error e

mutual

def runForest (fuel : Nat) (i : Nat) : Forest → Work Flow
  | .nil => return .on
  | .leaf b rest => do
    match ← single eval breach depth b i with
    | .stop e => return .stop e
    | .on => runForest fuel (i + 1) rest
  | .group b body tail rest => do
    let outside ← read (·.exec.control)
    let pass := fun n bare =>
      unlessCancelled .stop (branch eval breach depth true outside b i bare none (runForest n (i + 1) body))
    match ← passes pass fuel false with
    | .error e => return .stop e
    | .ok v =>
      match ← runTail fuel outside (i + 1 + body.size) v tail with
      | .stop e => return .stop e
      | .on => runForest fuel (i + 1 + body.size + tail.size) rest

def runTail (fuel : Nat) (outside : List ControlFrame) (i : Nat) (v : Value) : Tail → Work Flow
  | .stop _ => do
    release v
    return .on
  | .more b body tail => do
    match ← branch eval breach depth false outside b i v.isOmitted (some v) (runForest fuel (i + 1) body) with
    | .through v => runTail fuel outside (i + 1 + body.size) v tail
    | .again _ => crash breach
    | .stop e => return .stop e

end

def runChain (fuel : Nat) (c : ChainId) : Work (Option Error) := do
  match ← read (·.program.tree? c) with
  | none => crash breach
  | some f =>
    match ← runForest eval breach depth fuel 0 f with
    | .on => return none
    | .stop e => return e

end

mutual

def evaluate (breach : Fault) : Nat → Evaluator
  | 0 => fun _ _ _ _ _ => starve
  | n + 1 => evaluateWith (evaluate breach n) (invoke breach n)

def invoke (breach : Fault) : Nat → Invoker
  | 0 => fun _ _ => starve
  | n + 1 => invokeWith fun c depth => runChain (evaluate breach n) breach depth n c

end

end Structured

end BlockEngine
