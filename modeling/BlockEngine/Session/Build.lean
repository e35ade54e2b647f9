/-
  BlockEngine.Session.Build — kinds, blocks and chains of a session from their specifications.
-/

import BlockEngine.Session.Basic

namespace BlockEngine.Session

namespace Act

def native : NativeSpec → Act (Option Native)
  | .none => return none
  | .standard id =>
    match Library.native? id with
    | some n => return some n
    | none => edit (Library.refuse ("unknown block " ++ id.quoted))
  | .same name => do
    let h ← handle name
    match ← readRegistry "main" (·.definition? h) with
    | some d => return d.native
    | none => throw (.error (.access .absent))
  | .script s => do
    let k := (← get).world.host.counters.size
    mapWorld fun w => { w with host.counters := w.host.counters.push 0 }
    return some (s.native k)

def input (i : InputSpec) : Act Input := do
  let child ← match i.child with
    | some name => handle name
    | none => pure .zero
  return { type := i.type, text := i.text, options := i.options, child := child }

def definition (k : KindSpec) : Act Definition := do
  let native ← native k.native
  let inputs ← k.inputs.mapM input
  return { id := k.id, color := k.color, hidden := k.hidden, type := k.type, inputs, native }

mutual

def place (l : Library) : BlockSpec → Act BlockId
  | .standard id args => do
    let args ← fillings l args
    edit (l.new id args)
  | .use name args => do
    let args ← fillings l args
    edit (l.place (← handle name) args)
  | .param name i => do edit (l.param (← handle name) i)
  | .named name => block name

def fillings (l : Library) : List ArgSpec → Act (List Filling)
  | [] => return []
  | a :: rest => do
    let f ← filling l a
    return f :: (← fillings l rest)

def filling (l : Library) : ArgSpec → Act Filling
  | .text t => return .text t
  | .block b => return .block (← place l b)
  | .foreign t => return .foreign t

end

def placeAll (l : Library) (specs : List BlockSpec) : Act (List BlockId) := specs.mapM (place l)

end Act

end BlockEngine.Session
