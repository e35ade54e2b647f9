/-
  BlockEngine.Library.Builder — building programs from the standard blocks.

  A library is the standard blocks in one registry. Building with it breaks down on malformed
  calls.
-/

import BlockEngine.Library.Palette
import BlockEngine.Program.Chain
import BlockEngine.Registry.Procedure

namespace BlockEngine

structure Library where
  registry : RegistryId
  handles : Table Handle

inductive Filling where
  | text (t : Text)
  | block (b : BlockId)
  /-- Something of a type that no argument takes. -/
  | foreign (typeName : Text)

namespace Library

def refuse {α : Type} (t : Text) : Edit α := Edit.crash (.message ("stdblocks: " ++ t))

def register (r : RegistryId) : Edit Library := do
  let handles ← Edit.onRegistry r (registerAll standard)
  return { registry := r, handles := handles }

def handle (l : Library) (id : Text) : Edit Handle :=
  match l.handles.get? id with
  | some h => pure h
  | none => refuse ("unknown block " ++ id.quoted)

/-- The first slot at or after `i` that is not for a definition. -/
def nextSlot (slots : List Slot) (i : Nat) : Nat :=
  i + ((slots.drop i).takeWhile (·.input == .definition)).length

/-- Fills the slots of a block from slot `i` on, passing over those for definitions. -/
def fill (b : BlockId) : Nat → List Filling → Edit Unit
  | _, [] => return ()
  | i, f :: rest => do
    let x ← Edit.block b
    let i := nextSlot x.slots i
    match x.slots[i]? with
    | none => refuse ("too many arguments for " ++ ((← get).kindOf b).id.quoted)
    | some s =>
      match f with
      | .text t => if s.input = .dropdown then Edit.setConst b i t else Edit.setText b i t
      | .block c => Edit.nest b i c
      | .foreign t => refuse ("unsupported argument " ++ t)
      fill b (i + 1) rest

def place (l : Library) (h : Handle) (args : List Filling) : Edit BlockId := do
  match ← Edit.newBlock l.registry h with
  | .error e => refuse e.message
  | .ok b =>
    fill b 0 args
    return b

def new (l : Library) (id : Text) (args : List Filling) : Edit BlockId := do
  l.place (← l.handle id) args

/-- Starts the chain that defines a procedure: a hat that holds the new signature. -/
def define (l : Library) (name : Text) (params : List Text) : Edit (ChainId × Handle) := do
  let hat ← l.new "define" []
  let h ← Edit.onRegistry l.registry fun r => r.newProcedure name params
  Edit.setDefinition hat 0 h
  return (← Edit.newChain [hat], h)

def param (l : Library) (h : Handle) (i : Int) : Edit BlockId := do
  let params := ((← get).registry l.registry).params h
  match (if 0 ≤ i then params[i.toNat]? else none) with
  | some p => l.place p []
  | none => refuse ("procedure has no parameter " ++ Text.ofInt i)

def terminate (l : Library) (c : ChainId) : Nat → Edit Unit
  | 0 => return ()
  | n + 1 => do
    match ← Edit.newBlock l.registry ((← get).registry l.registry).terminator with
    | .error e => refuse e.message
    | .ok b =>
      Edit.append c [b]
      l.terminate c n

def close (l : Library) (c : ChainId) : Edit Unit := do
  let blocks := (← get).outline c
  l.terminate c (Balance.excess (blocks.map (·.1))).toNat

def program (l : Library) (bs : List BlockId) : Edit ChainId := do
  let hat ← l.new "when_run" []
  let c ← Edit.newChain (hat :: bs)
  l.close c
  return c

end Library

end BlockEngine
