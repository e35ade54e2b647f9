/-
  BlockEngine.Session.Scenario — a whole program, built and run from a description.

  A scenario registers the standard blocks and kinds of its own, builds chains, checks and adds
  them, and runs the program on one interpreter, as often as it says.
-/

import BlockEngine.Session.Perform

namespace BlockEngine.Session

inductive ChainForm where
  /-- An entry chain of blocks, closed. -/
  | program (specs : List BlockSpec)
  | raw (specs : List BlockSpec) (closed : Bool)
  /-- The body of a procedure. -/
  | body (procedure : Text) (specs : List BlockSpec) (closed : Bool)

structure ChainSpec where
  name : Text
  form : ChainForm
  /-- The chain belongs to the program that is run. -/
  added : Bool

structure Scenario where
  limits : Limits
  /-- Kinds with the names of their handles, and whether they stay off the palette. -/
  kinds : List (Text × Bool × KindSpec)
  /-- Procedures with their parameters. -/
  procedures : List (Text × List Text)
  chains : List ChainSpec
  /-- How many lines may be printed. -/
  capacity : Option Nat
  /-- The runs are cancelled from the start. -/
  cause : Option CancelCause
  times : Nat

structure Performance where
  validations : List (Option Error)
  runs : List RunView
  size : Nat
  session : Session

namespace Act

def addKinds : List (Text × Bool × KindSpec) → Act Unit
  | [] => return ()
  | (name, custom, k) :: rest => do
    let _ ← reply (if custom then .custom "main" name k else .register "main" name k)
    addKinds rest

def addProcedures (l : Library) (started : Table ChainId) :
    List (Text × List Text) → Act (Table ChainId)
  | [] => return started
  | (name, params) :: rest => do
    let (c, h) ← edit (l.define name params)
    nameHandle name h
    addProcedures l (started.set name c) rest

def buildChain (l : Library) (procedures : Table ChainId) : ChainForm → Act ChainId
  | .program specs => do
    let bs ← placeAll l specs
    edit (l.program bs)
  | .raw specs closed => do
    let bs ← placeAll l specs
    let c ← edit (Edit.newChain bs)
    if closed then edit (l.close c)
    return c
  | .body name specs closed => do
    let bs ← placeAll l specs
    match procedures.get? name with
    | none => throw (.error (.access .absent))
    | some c =>
      edit (Edit.append c bs)
      if closed then edit (l.close c)
      return c

def addChains (l : Library) (procedures : Table ChainId) (v : EngineId) :
    List ChainSpec → Act (List (Option Error))
  | [] => return []
  | spec :: rest => do
    let c ← buildChain l procedures spec.form
    nameChain spec.name c
    let e ← readProgram (·.validate c)
    if spec.added then
      mapWorld (·.mapEngine v fun x => { x with chains := x.chains ++ [c] })
    return e :: (← addChains l procedures v rest)

def runTimes (v : EngineId) (x : ExecId) (cause : Option CancelCause) : Nat → Act (List RunView)
  | 0 => return []
  | n + 1 => do
    match ← startRun v x cause with
    | .error e => throw (.error e)
    | .ok r =>
      mapWorld (·.finish r)
      let view ← viewRun r
      let rest ← runTimes v x cause n
      return view.toList ++ rest

end Act

def Scenario.act (s : Scenario) : Act (List (Option Error) × List RunView) := do
  let _ ← Act.reply (.std "main")
  let v ← Act.engine "main"
  let l ← Act.library "main"
  Act.mapWorld fun w => { w with host.capacity := s.capacity }
  Act.addKinds s.kinds
  let procedures ← Act.addProcedures l [] s.procedures
  let validations ← Act.addChains l procedures v s.chains
  let x ← Act.onWorld (·.addExec s.limits)
  let runs ← Act.runTimes v x s.cause s.times
  return (validations, runs)

def Scenario.play (s : Scenario) : Except Fault Performance :=
  match ExceptT.run s.act initial with
  | (.ok (validations, runs), session) =>
    .ok { validations, runs, size := session.mainSize, session }
  | (.error f, _) => .error f

end BlockEngine.Session
