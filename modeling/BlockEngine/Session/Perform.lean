/-
  BlockEngine.Session.Perform — carrying out commands.
-/

import BlockEngine.Session.Build

namespace BlockEngine.Session

namespace Act

def refusable {α : Type} (r : Except Error α) (reply : α → Act Reply) : Act Reply :=
  match r with
  | .ok a => reply a
  | .error e => return .error e

def acknowledged {α : Type} (r : Except Error α) : Act Reply := refusable r fun _ => return .ok

def counted (r : Except Error Nat) : Act Reply := refusable r fun n => return .count n

/-- What is read off a palette, which breaks down at a record that is not in use. -/
def accessed {α : Type} (r : Except AccessError α) : Act α :=
  match r with
  | .ok a => return a
  | .error e => throw (.error (.access e))

def showBlock (b : BlockId) : Act Reply := return .block (← readProgram (viewBlock · b))

def showIds (c : ChainId) : Act Reply := return .ids (← readProgram (·.ids c))

def showHandle (as : Text) (h : Handle) : Act Reply := do
  nameHandle as h
  return .handle h

def changed (name : Text) (f : BlockId → Act Unit) : Act Reply := do
  let b ← block name
  f b
  showBlock b

def newBlock (as : Text) (b : BlockId) : Act Reply := do
  nameBlock as b
  showBlock b

def newChain (as : Text) (c : ChainId) : Act Reply := do
  nameChain as c
  showIds c

/-! ## Registries -/

def registryCommand (v : Text) (f : Handle → Registry → Except Error Nat × Registry) (h : Text) :
    Act (Except Error Nat) := do
  let h ← handle h
  onRegistry v (f h)

def showDefinition (v h : Text) : Act Reply := do
  let h ← handle h
  let s ← get
  let d ← readRegistry v (·.definition? h)
  return .definition (d.map fun d => ⟨d, d.owner.bind s.chainName⟩)

/-! ## Chains -/

def splice (f : ChainId → ChainId → Int → Edit (Except Error Unit)) (dst src : Text) (i : Int) :
    Act Reply := do
  let d ← chain dst
  let s ← chain src
  let r ← edit (f d s i)
  let error := match r with
    | .ok _ => none
    | .error e => some e
  return .spliced error (← readProgram (·.ids d)) (← readProgram (·.ids s))

def copyPart (f : ChainId → Int → Edit (Except Error ChainId)) (as c : Text) (i : Int) :
    Act Reply := do
  let c ← chain c
  refusable (← edit (f c i)) (newChain as)

def nthBlock (as c : Text) (i : Int) : Act Reply := do
  let c ← chain c
  let bs ← readProgram (·.chain c)
  match (if 0 ≤ i then bs[i.toNat]? else none) with
  | some b => newBlock as b
  | none => throw (.error (.access (.ofIndex i bs.length)))

/-! ## Runs -/

/-- Does actions on an interpreter outside any block. -/
def actOn (x : ExecId) (actions : List Script.Action) : Act (Except Fault Value) :=
  onWorld fun w =>
    let script := Script.performAll [] 0 .nothing actions
    match (Work.perform (Work.invoke Work.fuel) script (w.machine x)).unpaused with
    | .done v m => (.ok (m.storage.view v), w.absorb x m)
    | .fault f m => (.error f, w.absorb x m)
    | .paused m _ => (.ok .nothing, w.absorb x m)
    | .starved m => (.ok .nothing, w.absorb x m)

def progress (r : RunId) : Act Reply := do
  let report ← collect
  return .progress ((← get).world.isPaused r) report

def viewRun (r : RunId) : Act (Option RunView) := do
  let report ← collect
  match ← onWorld (·.join r) with
  | none => return none
  | some e =>
    let w := (← get).world
    let x := match w.runs[r]? with
      | some run => w.exec run.exec
      | none => w.exec 0
    return some
      { ending := { e with results := e.results.map w.storage.view }
        report := report
        counts := x.counts
        running := x.running }

def startRun (v : EngineId) (x : ExecId) (cause : Option CancelCause) :
    Act (Except Error RunId) := do
  match ← onWorld (·.start v x cause) with
  | .error e => return .error e
  | .ok r =>
    mapWorld (·.proceed r)
    return .ok r

def reply : Command → Act Reply
  | .std v => do
    let id ← engine v
    let l ← edit (Library.register (← registry v))
    mapWorld (·.mapEngine id fun e => { e with library := some l })
    return .count (← readRegistry v (·.size))
  | .register v as k => do
    let d ← definition k
    showHandle as (← onRegistry v (·.register d))
  | .custom v as k => do
    let d ← definition k
    showHandle as (← onRegistry v (·.alloc d))
  | .procedure v as name params => do
    showHandle as (← onRegistry v (·.newProcedure name params))
  | .unregister v h => do acknowledged (← registryCommand v Registry.unregister h)
  | .retain v h => do counted (← registryCommand v Registry.retain h)
  | .release v h => do counted (← registryCommand v Registry.release h)
  | .refCount v h => do
    let h ← handle h
    return .count (← readRegistry v (·.refCount h))
  | .definition v h => showDefinition v h
  | .lookup v as id => do
    let h ← accessed (← readRegistry v (·.lookup id))
    nameHandle as (h.getD .zero)
    return .found h
  | .palette v => return .handles (← readRegistry v (·.palette))
  | .visible v => return .handles (← accessed (← readRegistry v (·.visible)))
  | .terminator v as => do showHandle as (← readRegistry v (·.terminator))
  | .size v => return .count (← readRegistry v (·.size))
  | .copyDefinition v as h => do
    let h ← handle h
    refusable (← onRegistry v (·.copyDefinition h)) (showHandle as)
  | .params v h names => do
    let h ← handle h
    let hs ← readRegistry v (·.params h)
    for (name, h) in names.zip hs do
      nameHandle name h
    return .handles hs
  | .block v as h => do
    let h ← handle h
    refusable (← edit (Edit.newBlock (← registry v) h)) (newBlock as)
  | .place v as spec => do newBlock as (← place (← library v) spec)
  | .copyBlock as b parent => do
    let b ← block b
    let parent ← parent.mapM block
    newBlock as (← edit (Edit.copyBlock b parent))
  | .destroyBlock b => changed b fun b => edit (modify fun p => p.destroyBlock b)
  | .showBlock b => changed b fun _ => return ()
  | .setText b i t => changed b fun b => edit (Edit.setText b i t)
  | .setConst b i t => changed b fun b => edit (Edit.setConst b i t)
  | .nest b i child => changed b fun b => do edit (Edit.nest b i (← block child))
  | .setDefinition b i h => changed b fun b => do edit (Edit.setDefinition b i (← handle h))
  | .clear b i => changed b fun b => edit (Edit.clear b i)
  | .takeBlock as b i => do
    match ← edit (Edit.takeBlock (← block b) i) with
    | some c => newBlock as c
    | none => return .block none
  | .slotHandle as b i => do
    let s ← edit (Edit.slot (← block b) i)
    showHandle as s.definition
  | .chain as blocks => do newChain as (← edit (Edit.newChain (← blocks.mapM block)))
  | .placeChain v as specs => do
    let bs ← placeAll (← library v) specs
    newChain as (← edit (Edit.newChain bs))
  | .program v as specs => do
    let l ← library v
    let bs ← placeAll l specs
    newChain as (← edit (l.program bs))
  | .define v as name params => do
    let l ← library v
    let (c, h) ← edit (l.define name params)
    nameChain as c
    nameHandle as h
    return .defined (← readProgram (·.ids c)) h
  | .append c blocks => do
    let c ← chain c
    edit (Edit.append c (← blocks.mapM block))
    showIds c
  | .nthBlock as c i => nthBlock as c i
  | .validate c => do
    let c ← chain c
    match ← readProgram (·.validate c) with
    | none => return .ok
    | some e => return .error e
  | .chainInfo c => do
    let c ← chain c
    readProgram fun p => .chainInfo (p.chain c).length (p.isEntry c) (p.signature? c)
  | .signature as c => do
    let c ← chain c
    showHandle as ((← readProgram (·.signature? c)).getD .zero)
  | .showChain c => do
    let c ← chain c
    readProgram fun p => .blocks ((p.chain c).filterMap (viewBlock p))
  | .insert dst src i => splice Edit.insert dst src i
  | .detach dst src i => splice Edit.detach dst src i
  | .copyRun as c i => copyPart Edit.copyRun as c i
  | .copyTail as c i => copyPart Edit.copyTail as c i
  | .destroyChain c => do
    let c ← chain c
    edit (modify fun p => p.destroyChain c)
    showIds c
  | .close v c => do
    let c ← chain c
    edit ((← library v).close c)
    showIds c
  | .libHandle v as id => do showHandle as (← edit ((← library v).handle id))
  | .newEngine as => do
    let v ← onWorld (·.addEngine)
    modify fun s => { s with engines := s.engines.set as v }
    return .ok
  | .addChain v c => do
    let v ← engine v
    let c ← chain c
    mapWorld (·.mapEngine v fun e => { e with chains := e.chains ++ [c] })
    return .count ((← get).world.engine v).chains.length
  | .removeChain v c => do
    let v ← engine v
    let c ← chain c
    let isThere := ((← get).world.engine v).chains.contains c
    mapWorld (·.mapEngine v fun e => { e with chains := e.chains.erase c })
    return .flag isThere
  | .chains v => do
    let v ← engine v
    let s ← get
    return .names ((s.world.engine v).chains.map s.chainName)
  | .engineRunning v => do
    let v ← engine v
    return .flag ((← get).world.engine v).current.isSome
  | .exec as limits => do
    let x ← onWorld (·.addExec limits)
    modify fun s => { s with execs := s.execs.set as x }
    return .limits limits
  | .execState x => do
    let x ← exec x
    let e := (← get).world.exec x
    return .execState e.running e.counts
  | .act x actions => do
    let x ← exec x
    let r ← actOn x actions
    let report ← collect
    return .acted r ((← get).world.exec x).counts report
  | .start v as x cause => do
    let v ← engine v
    let x ← exec x
    refusable (← startRun v x cause) fun r => do
      modify fun s => { s with runs := s.runs.set as r }
      progress r
  | .resume r => do
    let r ← runOf r
    if (← get).world.isPaused r then
      mapWorld (·.proceed r)
    progress r
  | .cancel r cause => do
    let r ← runOf r
    mapWorld (·.cancel r cause)
    return .ok
  | .tryJoin r => do
    let r ← runOf r
    match ← onWorld (·.join r) with
    | some e => return .status e.status true
    | none => return .status .running false
  | .join r => do
    let r ← runOf r
    mapWorld (·.finish r)
    match ← viewRun r with
    | some v => return .run v
    | none => throw (.error (.access .absent))
  | .runError r => do
    let r ← runOf r
    let ending := ((← get).world.runs[r]?).bind (·.ending?)
    return .ending (ending.bind (·.error))

end Act

/-- Carries out a command. A fault is a reply, too; what was done before it stays done. -/
def perform (c : Command) (s : Session) : Reply × Session :=
  match ExceptT.run (Act.reply c) s with
  | (.ok r, s) => (r, s)
  | (.error f, s) => (.fault f, s)

def mainSize (s : Session) : Nat := (s.world.program.registry (s.world.engine 0).registry).size

def kept (s : Session) : Table Value :=
  s.world.host.kept.map fun (name, v) => (name, s.world.storage.view v)

end BlockEngine.Session
