/-
  BlockEngine.Cli.Command — what one call of the command line does.

  Options and manifest make a plan; a plan is carried out by building, checking and running the
  demonstration program. In between the log file is opened, if there is one. A time limit of one
  nanosecond is over before the program starts, and no other is reached.
-/

import BlockEngine.Cli.Demo
import BlockEngine.Cli.Options
import BlockEngine.Config.Manifest
import BlockEngine.Run.Lifecycle
import BlockEngine.Wire.Message

namespace BlockEngine.Cli

structure Report where
  code : Nat
  out : Text := []
  err : Text := []

namespace Report

def failure (message : Text) : Report := ⟨1, [], "Error: " ++ message ++ "\n"⟩

def ofRefusal : Options.Refusal → Report
  | .help => ⟨0, [], Options.usage⟩
  | .misuse m => ⟨2, [], m.message ++ "\n" ++ Options.usage⟩

def noLog (path reason : Text) : Report :=
  ⟨1, [], "log file error: open " ++ path ++ ": " ++ reason ++ "\n"⟩

end Report

structure Plan where
  name : Text
  limits : Limits
  /-- The time limit; there is none if it is not positive. -/
  timeout : Config.Duration
  /-- The log file, if there is anything to log to one. -/
  logFile : Option Text
  encoded : Bool
  checkOnly : Bool

namespace Plan

/-- The least verbosity at which anything is logged. -/
def leastVerbosity : Int := -3

def make (o : Options) (m : Config.Manifest) : Except Report Plan := do
  let timeout ← match o.timeout with
    | some d => .ok d
    | none =>
      match m.timeout with
      | .ok d => .ok d
      | .error f => .error (.failure f.message)
  let logs := decide (leastVerbosity ≤ o.verbosity.getD m.verbosity)
  return {
    name := m.name
    limits := m.limits
    timeout := timeout
    logFile := if logs && !m.logPath.isEmpty then some m.logPath else none
    encoded := o.encoded
    checkOnly := o.checkOnly }

def ofArguments (args : List Text) (t : Config.Tree) (cwd : Config.Path) : Except Report Plan :=
  match Options.parse {} args with
  | .error r => .error (.ofRefusal r)
  | .ok o =>
    match Config.Manifest.find t (cwd.resolve o.directory) with
    | .error e => .error (.failure e.message)
    | .ok m => make o (m.getD {})

def cause (p : Plan) : Option CancelCause := if p.timeout = 1 then some .deadline else none

def resultLines : Nat → List Value → Text
  | _, [] => []
  | i, v :: rest =>
    "result " ++ Text.ofNat i ++ ": " ++ v.toText ++ "\n" ++ resultLines (i + 1) rest

def exitCode : Status → Nat
  | .ok => 0
  | .cancelled => 130
  | _ => 1

def conclude (p : Plan) (printed : Text) (e : Ending) : Report :=
  let err := match e.error with
    | some x => e.status.name ++ ": " ++ x.message ++ "\n"
    | none => []
  if p.encoded then
    match Wire.encodeResults e.results with
    | .ok bytes => ⟨exitCode e.status, printed ++ bytes.hex ++ "\n", err⟩
    | .error x => ⟨1, printed, err ++ "Error: " ++ x.message ++ "\n"⟩
  else ⟨exitCode e.status, printed ++ resultLines 0 e.results, err⟩

def runOn (p : Plan) (v : EngineId) (w : World) : Report :=
  let (x, w) := w.addExec p.limits
  match w.start v x p.cause with
  | (.error e, _) => .failure e.message
  | (.ok r, w) =>
    let w := (w.proceed r).finish r
    let printed := w.host.output
    match w.join r with
    | (some e, w) => p.conclude printed { e with results := e.results.map w.storage.view }
    | (none, _) => ⟨1, printed, []⟩

/-- Checks the demonstration program and runs it, unless it is only to be checked. -/
def carryOut (p : Plan) : Report :=
  let (v, w) := World.addEngine {}
  let build : Edit (List ChainId) := do Demo.chains (← Library.register (w.engine v).registry)
  match build.run w.program with
  | (.error f, _) => .failure f.toError.message
  | (.ok chains, program) =>
    match chains.findSome? program.validate with
    | some e => .failure e.message
    | none =>
      if p.checkOnly then
        ⟨0, p.name ++ ": " ++ Text.ofNat chains.length ++ " chain(s) ok\n", []⟩
      else
        let w := { w with program := program }
        p.runOn v (w.mapEngine v fun x => { x with chains := chains })

end Plan

def call (args : List Text) (t : Config.Tree) (cwd : Config.Path) : Report :=
  match Plan.ofArguments args t cwd with
  | .error r => r
  | .ok p =>
    let obstacle := do
      let path ← p.logFile
      let o ← t.obstacle? (cwd.resolve path)
      some (path, o)
    match obstacle with
    | some (path, o) => .noLog path o.message
    | none => p.carryOut

end BlockEngine.Cli
