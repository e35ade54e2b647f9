/-
  BlockEngine.Run.Worker — running a whole program on one interpreter.

  A worker empties the interpreter, links procedures to the chains that define them, and invokes
  the entry chains that define none, in program order, until one fails. Whatever breaks down in a
  chain ends the run as a fatal error.
-/

import BlockEngine.Machine.Evaluate

namespace BlockEngine

inductive Status where
  | running
  | ok
  | failed
  | cancelled
  | fatal
  deriving DecidableEq, Repr

namespace Status

def name : Status → Text
  | .running => "running"
  | .ok => "ok"
  | .failed => "failed"
  | .cancelled => "cancelled"
  | .fatal => "fatal"

/-- The name that goes with a code, also with one that stands for no status. -/
def nameOf (code : Int) : Text :=
  match code with
  | 0 => running.name
  | 1 => ok.name
  | 2 => failed.name
  | 3 => cancelled.name
  | 4 => fatal.name
  | _ => "status(" ++ Text.ofInt code ++ ")"

end Status

/-- How a run ended: with the results of the entry chains that were completed. -/
structure Ending where
  status : Status
  error : Option Error
  results : List Value

namespace Registry

def own (c : ChainId) (r : Registry) (h : Handle) : Registry :=
  match r.kind? h with
  | some k => { r with kinds := r.kinds.modify k fun d => { d with owner := some c } }
  | none => r

end Registry

/-- Links the signature that a chain's hat holds, and its parameters, to the chain. -/
def Program.linkChain (r : RegistryId) (p : Program) (c : ChainId) : Program :=
  match p.signature? c with
  | some h =>
    let x := p.registry r
    if (x.kind? h).isSome then p.setRegistry r ((h :: x.params h).foldl (Registry.own c) x) else p
  | none => p

/-- Links every chain in turn; of two with one signature the later one stands. -/
def Program.link (r : RegistryId) (cs : List ChainId) (p : Program) : Program :=
  cs.foldl (linkChain r) p

/-- A chain that a run starts by itself: an entry chain that defines no procedure. -/
def Program.isMain (p : Program) (c : ChainId) : Bool := p.isEntry c && (p.signature? c).isNone

namespace Work

/-- Enough fuel for any run that ends within a lifetime. -/
def fuel : Nat := 2 ^ 60

/-- Invokes chains in order after some results. -/
def runMains (invoke : Invoker) : List ChainId → List Value → Work Ending
  | [], results => return ⟨.ok, none, results⟩
  | c :: rest, results => do
    if !(← read (·.program.isMain c)) then runMains invoke rest results
    else
      match ← attempt (invoke c []) with
      | .error f => return ⟨.fatal, some f.toError, results⟩
      | .ok (.error e) =>
        return ⟨if e.isCancellation then .cancelled else .failed, some e, results⟩
      | .ok (.ok v) => runMains invoke rest (results ++ [v])

/-- Runs a program's chains on an interpreter that may be cancelled from the start. -/
def worker (invoke : Invoker) (r : RegistryId) (cs : List ChainId) (cause : Option CancelCause) :
    Work Ending := do
  drain
  modify fun m => { m with exec.cancelled := cause, program := m.program.link r cs }
  runMains invoke cs []

def cleanUp : Work Unit := do
  drain
  mapExec fun x => { x with cancelled := none, running := false }

end Work

end BlockEngine
