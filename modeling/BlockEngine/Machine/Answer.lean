/-
  BlockEngine.Machine.Answer — how the engine and its host answer a native's requests.
-/

import BlockEngine.Machine.Work

namespace BlockEngine

/-- Runs a chain as one invocation with the given arguments. -/
abbrev Invoker := ChainId → List Value → Work (Except Error Value)

namespace Work

/-- Suppresses the body that is about to open. Nowhere but on entering a control block at chain
    level is there one. -/
def skipBody : Work Unit := fun m =>
  match m.exec.eval with
  | none => .fault (.error (.inBlock [] (-1) .notControl)) m
  | some e =>
    if e.canSkip then .done () { m with exec.eval := some { e with skip := true } }
    else .fault (.error (.inBlock (m.program.kindOf e.block).id e.index .notControl)) m

def jumpTo (i : Int) : Work Unit :=
  mapExec (Exec.mapEval fun e => { e with jump := if 0 ≤ i then some i.toNat else none })

/-- The first error stands. -/
def fail (x : Error) : Work Unit :=
  mapExec (Exec.mapEval fun e => { e with error := some (e.error.getD x) })

/-- Sets the result of the innermost invocation, freeing an earlier one. -/
def finish (v : Value) : Work Unit := modify fun m =>
  match m.exec.calls with
  | [] => m
  | f :: rest =>
    { m with
      exec.calls := { f with result := some v } :: rest
      storage := m.storage.release (f.result.getD .nothing) }

def declare (name : Text) (v : Value) : Work Unit := do
  let x ← read (·.exec)
  pushVariable { name := name, value := v, depth := x.calls.length, layer := x.layer }

def assign (name : Text) (v : Value) : Work Bool := fun m =>
  match m.exec.bindings.findIdx? (·.name == name) with
  | none => .done false m
  | some i =>
    let old := ((m.exec.bindings[i]?).map (·.value)).getD .nothing
    .done true
      { m with
        exec.bindings := m.exec.bindings.modify i (·.bind v)
        storage := m.storage.release old }

def fetch (name : Text) : Work (Option Value) := do
  match ← read (·.exec.bindings.find? (·.name == name)) with
  | none => return none
  | some x => return some (← onStorage (·.copy x.value))

def argument (i : Int) : Work Value := do
  match ← read (·.exec.calls) with
  | [] => return .nothing
  | f :: _ =>
    match (if 0 ≤ i then f.args[i.toNat]? else none) with
    | some v => onStorage (·.copy v)
    | none => return .nothing

/-- Runs a chain on copies of the arguments. An error becomes that of the caller. -/
def call (invoke : Invoker) (c : Option ChainId) (args : List Value) : Work Value := do
  match c with
  | none =>
    fail .unlinked
    return .nothing
  | some c =>
    let bound ← onStorage (·.copyAll args)
    let r ← invoke c bound
    modify fun m => { m with storage := m.storage.releaseAll bound }
    match r with
    | .ok v => return v
    | .error e =>
      fail e
      return .nothing

def glimpse : Work Glimpse := read fun m =>
  { index := (m.exec.eval.map (·.index)).getD (-1)
    block := m.exec.eval.map fun e => (m.program.kindOf e.block).id
    layer := m.exec.layer
    counts := m.exec.counts
    running := m.exec.running
    cancelled := m.exec.cancelled.isSome }

/-- Writes a line, if the host still takes one. -/
def print (line : Text) : Work (Option Error) := fun m =>
  if m.host.capacity.any (· ≤ m.host.writes) then .done (some (.worded "sink full")) m
  else
    .done none
      { m with host.printed := line :: m.host.printed, host.writes := m.host.writes + 1 }

def tick (k : Nat) : Work Nat := fun m =>
  let n := m.host.counters[k]?.getD 0 + 1
  .done n { m with host.counters := m.host.counters.setIfInBounds k n }

def cancelRun (cause : CancelCause) : Work Unit :=
  mapExec fun x => if x.running then x.cancel cause else x

def answer (invoke : Invoker) : (r : Request) → Work r.Reply
  | .skipBody => skipBody
  | .jumpTo i => jumpTo i
  | .finish v => finish v
  | .fail e => fail e
  | .declare name v => declare name v
  | .assign name v => assign name v
  | .fetch name => fetch name
  | .pushData v => pushControl (.data v)
  | .popData => popData
  | .argument i => argument i
  | .call c args => call invoke c args
  | .glimpse => glimpse
  | .view v => view v
  | .copy v => onStorage (·.copy v)
  | .newList own items => onStorage (·.newList own items)
  | .place v => onStorage (·.place v)
  | .free v => modify fun m => { m with storage := m.storage.free v }
  | .print line => print line
  | .report e => mapHost fun h => { h with events := e :: h.events }
  | .tick k => tick k
  | .keep name v => mapHost fun h => { h with kept := h.kept.set name v }
  | .kept name => read (·.host.kept.get? name)
  | .chainNamed name => read (·.host.chains.get? name)
  | .pause => pause
  | .cancelRun cause => cancelRun cause

def perform {α : Type} (invoke : Invoker) : Proc α → Work α
  | .done a => pure a
  | .crash f => crash f
  | .ask r go => bind (answer invoke r) fun reply => perform invoke (go reply)

end Work

end BlockEngine
