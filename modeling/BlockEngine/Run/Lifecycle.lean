/-
  BlockEngine.Run.Lifecycle — engines, interpreters and the runs that occupy them.

  An engine owns a registry and a program and has at most one run that was not joined. An
  interpreter serves at most one run that has not cleaned up. Starting claims the interpreter,
  then the engine, and gives the interpreter back if the engine is taken. The worker works until
  it ends, cleans up its interpreter and closes the run; joining a closed run frees the engine,
  unless a later run has it by then. Each of these steps is a function of its own; callers and
  workers may interleave them in any order.
-/

import BlockEngine.Library.Builder
import BlockEngine.Run.Worker

namespace BlockEngine

abbrev ExecId := Nat

abbrev EngineId := Nat

abbrev RunId := Nat

structure Engine where
  registry : RegistryId
  /-- The chains of the program, in order. -/
  chains : List ChainId := []
  /-- The run that was started and not joined. -/
  current : Option RunId := none
  library : Option Library := none

inductive Phase where
  /-- Nothing is done yet; the chains are those of the start. -/
  | ready (chains : List ChainId) (cause : Option CancelCause)
  | paused (resume : Machine → Outcome Ending)
  | ended (e : Ending)
  | cleaned (e : Ending)
  | closed (e : Ending)

structure Run where
  engine : EngineId
  exec : ExecId
  phase : Phase

def Run.ending? (r : Run) : Option Ending :=
  match r.phase with
  | .ended e => some e
  | .cleaned e => some e
  | .closed e => some e
  | _ => none

structure World where
  program : Program := {}
  storage : Storage := {}
  host : Host := {}
  journal : List NativeCall := []
  execs : Array Exec := #[]
  engines : Array Engine := #[]
  runs : Array Run := #[]

namespace World

def exec (w : World) (x : ExecId) : Exec := w.execs[x]?.getD { limits := .standard }

def engine (w : World) (v : EngineId) : Engine := w.engines[v]?.getD { registry := 0 }

def setExec (x : ExecId) (e : Exec) (w : World) : World :=
  { w with execs := w.execs.setIfInBounds x e }

def mapEngine (v : EngineId) (f : Engine → Engine) (w : World) : World :=
  { w with engines := w.engines.modify v f }

def setPhase (r : RunId) (p : Phase) (w : World) : World :=
  { w with runs := w.runs.modify r fun x => { x with phase := p } }

def addEngine (w : World) : EngineId × World :=
  (w.engines.size,
    { w with
      program.registries := w.program.registries.push {}
      engines := w.engines.push { registry := w.program.registries.size } })

def addExec (limits : Limits) (w : World) : ExecId × World :=
  (w.execs.size, { w with execs := w.execs.push { limits := limits } })

/-! ## Interpreters at work -/

def machine (w : World) (x : ExecId) : Machine :=
  { program := w.program
    exec := w.exec x
    storage := w.storage
    host := w.host
    journal := w.journal }

/-- The world after work on an interpreter's machine. -/
def absorb (x : ExecId) (m : Machine) (w : World) : World :=
  { w with
    program := m.program
    storage := m.storage
    host := m.host
    journal := m.journal
    execs := w.execs.setIfInBounds x m.exec }

/-! ## Starting -/

def claimExec (x : ExecId) (w : World) : Except Error World :=
  if (w.exec x).running then .error .execInUse
  else .ok (w.setExec x { w.exec x with running := true })

def unclaimExec (x : ExecId) (w : World) : World :=
  w.setExec x { w.exec x with running := false }

/-- Takes an engine that has no run, for a run on a claimed interpreter. -/
def claimEngine (v : EngineId) (x : ExecId) (cause : Option CancelCause) (w : World) :
    Except Error (RunId × World) :=
  if (w.engine v).current.isSome then .error .alreadyRunning
  else
    let r := w.runs.size
    .ok (r,
      { w.mapEngine v fun e => { e with current := some r } with
        runs := w.runs.push
          { engine := v, exec := x, phase := .ready (w.engine v).chains cause } })

/-- Starts a run, whose worker has yet to work. -/
def start (v : EngineId) (x : ExecId) (cause : Option CancelCause) (w : World) :
    Except Error RunId × World :=
  match w.claimExec x with
  | .error e => (.error e, w)
  | .ok claimed =>
    match claimed.claimEngine v x cause with
    | .error e => (.error e, claimed.unclaimExec x)
    | .ok (r, w) => (.ok r, w)

/-! ## The worker's steps -/

/-- The world after a stretch of a run's work. Work that starves never goes on. -/
def settle (r : RunId) (x : ExecId) (o : Outcome Ending) (w : World) : World :=
  match o with
  | .done e m => (w.absorb x m).setPhase r (.ended e)
  | .fault f m => (w.absorb x m).setPhase r (.ended ⟨.fatal, some f.toError, []⟩)
  | .paused m resume => (w.absorb x m).setPhase r (.paused resume)
  | .starved m => (w.absorb x m).setPhase r (.paused fun m => .starved m)

def work (r : RunId) (w : World) : World :=
  match w.runs[r]? with
  | some ⟨v, x, .ready cs cause⟩ =>
    let registry := (w.engine v).registry
    w.settle r x (Work.worker (Work.invoke Work.fuel) registry cs cause (w.machine x))
  | some ⟨_, x, .paused resume⟩ => w.settle r x (resume (w.machine x))
  | _ => w

/-- Works on a run until it ends, whatever pauses there are. -/
def workThrough (r : RunId) (w : World) : World :=
  match w.runs[r]? with
  | some ⟨_, x, .paused resume⟩ => w.settle r x (resume (w.machine x)).unpaused
  | _ => w

def cleanUp (r : RunId) (w : World) : World :=
  match w.runs[r]? with
  | some ⟨_, x, .ended e⟩ =>
    match Work.cleanUp (w.machine x) with
    | .done _ m => (w.absorb x m).setPhase r (.cleaned e)
    | _ => w
  | _ => w

def close (r : RunId) (w : World) : World :=
  match w.runs[r]? with
  | some ⟨_, _, .cleaned e⟩ => w.setPhase r (.closed e)
  | _ => w

/-- Works on a run until it pauses or is closed. -/
def proceed (r : RunId) (w : World) : World := ((w.work r).cleanUp r).close r

def finish (r : RunId) (w : World) : World := ((w.workThrough r).cleanUp r).close r

/-! ## Stopping and joining -/

def cancel (r : RunId) (cause : CancelCause) (w : World) : World :=
  match w.runs[r]? with
  | some ⟨_, _, .ready cs c⟩ => w.setPhase r (.ready cs (some (c.getD cause)))
  | some ⟨_, x, .paused _⟩ => w.setExec x ((w.exec x).cancel cause)
  | _ => w

/-- Joins a closed run: its ending, and its engine freed unless another run has it. -/
def join (r : RunId) (w : World) : Option Ending × World :=
  match w.runs[r]? with
  | some ⟨v, _, .closed e⟩ =>
    (some e,
      w.mapEngine v fun x => if x.current = some r then { x with current := none } else x)
  | _ => (none, w)

def isPaused (w : World) (r : RunId) : Bool :=
  match w.runs[r]? with
  | some ⟨_, _, .paused _⟩ => true
  | _ => false

end World

end BlockEngine
