/-
  BlockEngine.Session.Basic — the state of a session, and its objects by name.
-/

import BlockEngine.Session.Command

namespace BlockEngine

structure Session where
  world : World := {}
  engines : Table EngineId := []
  handles : Table Handle := [("zero", .zero)]
  blocks : Table BlockId := []
  execs : Table ExecId := []
  runs : Table RunId := []

namespace Session

def initial : Session :=
  let (v, w) := World.addEngine {}
  { world := w, engines := [("main", v)] }

/-- A change of a session with a result, or a fault. -/
abbrev Act (α : Type) := ExceptT Fault (StateM Session) α

namespace Act

variable {α : Type}

def edit (e : Edit α) : Act α := do
  let s ← get
  let (r, p) := e.run s.world.program
  set { s with world.program := p }
  match r with
  | .ok a => return a
  | .error f => throw f

def onWorld (f : World → α × World) : Act α :=
  modifyGet fun s =>
    let (a, w) := f s.world
    (a, { s with world := w })

def mapWorld (f : World → World) : Act Unit := modify fun s => { s with world := f s.world }

/-- What a name stands for; using a name that stands for nothing breaks down. -/
def named (t : Session → Table α) (name : Text) : Act α := do
  match (t (← get)).get? name with
  | some a => return a
  | none => throw (.error (.access .absent))

def engine (name : Text) : Act EngineId := named (·.engines) name

def block (name : Text) : Act BlockId := named (·.blocks) name

def chain (name : Text) : Act ChainId := named (·.world.host.chains) name

def exec (name : Text) : Act ExecId := named (·.execs) name

def runOf (name : Text) : Act RunId := named (·.runs) name

/-- The handle of a name; no name is the zero handle. -/
def handle (name : Text) : Act Handle := do
  return ((← get).handles.get? name).getD .zero

def registry (engineName : Text) : Act RegistryId := do
  let v ← engine engineName
  return ((← get).world.engine v).registry

def library (engineName : Text) : Act Library := do
  let v ← engine engineName
  match ((← get).world.engine v).library with
  | some l => return l
  | none => throw (.error (.access .absent))

def onRegistry (engineName : Text) (f : Registry → α × Registry) : Act α := do
  let r ← registry engineName
  edit (Edit.onRegistry r f)

def readRegistry (engineName : Text) (f : Registry → α) : Act α := do
  let r ← registry engineName
  return f ((← get).world.program.registry r)

def readProgram (f : Program → α) : Act α := return f (← get).world.program

/-! ## Naming -/

def nameHandle (name : Text) (h : Handle) : Act Unit :=
  unless name.isEmpty do modify fun s => { s with handles := s.handles.set name h }

def nameBlock (name : Text) (b : BlockId) : Act Unit :=
  unless name.isEmpty do modify fun s => { s with blocks := s.blocks.set name b }

def nameChain (name : Text) (c : ChainId) : Act Unit :=
  unless name.isEmpty do
    modify fun s => { s with world.host.chains := s.world.host.chains.set name c }

end Act

/-! ## Views -/

def chainName (s : Session) (c : ChainId) : Option Text :=
  Text.least? (s.world.host.chains.namesOf (· == c))

def viewTree (p : Program) : Nat → BlockId → Option BlockView
  | 0, _ => none
  | n + 1, b => do
    let x ← p.blocks[b]?
    let d := p.definitionOf x
    let slots := x.slots.map fun s =>
      match s.payload with
      | .block c =>
        let isLinked := ((p.blocks[c]?.bind (·.parent)) == some b)
        (s, (viewTree p n c).map (·, isLinked))
      | _ => (s, none)
    return .mk d.id x.handle d.type (x.parent.map fun q => (p.kindOf q).id) slots

def viewBlock (p : Program) (b : BlockId) : Option BlockView := viewTree p (p.blocks.size + 1) b

def collect : Act Report :=
  modifyGet fun s =>
    let h := s.world.host
    ({ events := h.events.reverse
       output := h.output },
      { s with world.host := { h with events := [], printed := [] } })

end Session

end BlockEngine
