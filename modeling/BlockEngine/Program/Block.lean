/-
  BlockEngine.Program.Block — placing, copying, destroying and editing blocks.

  Recursions follow nested blocks. Nesting has no cycles, so a program's number of blocks bounds
  their depth; it is the fuel of each.
-/

import BlockEngine.Program.Basic
import BlockEngine.Registry.Copy

namespace BlockEngine

namespace Program

/-- Points a block's parent at `parent`, and that of every block nested in it at its owner. -/
def relinkTree : Nat → BlockId → Option BlockId → Program → Program
  | 0, _, _, p => p
  | n + 1, b, parent, p =>
    match p.blocks[b]? with
    | none => p
    | some x =>
      x.slots.foldl
        (fun p s =>
          match s.payload with
          | .block c => relinkTree n c (some b) p
          | _ => p)
        (p.setBlock b { x with parent := parent })

def relink (b : BlockId) (parent : Option BlockId) (p : Program) : Program :=
  relinkTree (p.blocks.size + 1) b parent p

/-- Drops a reference in a registry. A stale handle is let pass. -/
def drop (r : RegistryId) (h : Handle) (p : Program) : Program :=
  if h.isZero then p else (p.onRegistry r fun x => x.release h).2

/-- Frees every payload of a block, then its hold on its kind. -/
def destroyTree : Nat → BlockId → Program → Program
  | 0, _, p => p
  | n + 1, b, p =>
    match p.blocks[b]? with
    | none => p
    | some x =>
      let p := x.slots.foldl
        (fun p s =>
          match s.payload with
          | .block c => destroyTree n c p
          | .definition h => p.drop x.registry h
          | _ => p)
        p
      (p.drop x.registry x.handle).setBlock b
        { x with handle := .zero, slots := [], parent := none, left := x.left ++ x.slots.map .cleared }

def destroyBlock (b : BlockId) (p : Program) : Program := destroyTree (p.blocks.size + 1) b p

def clearPayload (r : RegistryId) (s : Slot) (p : Program) : Program :=
  match s.payload with
  | .block c => p.destroyBlock c
  | .definition h => p.drop r h
  | _ => p

def setSlot (b : BlockId) (i : Nat) (s : Slot) (p : Program) : Program :=
  match p.blocks[b]? with
  | some x => p.setBlock b { x with slots := x.slots.set i s }
  | none => p

end Program

namespace Edit

/-- The default slot of an input. An input for a definition gets a fresh one of its own. -/
def newSlot (r : RegistryId) (id : Text) (i : Input) : Edit Slot := do
  match i.type with
  | .dropdown => return .of i.type (.const (i.options.head?.getD []))
  | .definition =>
    let h ← onRegistry r fun x => x.alloc { id := id ++ ".custom" }
    return .of i.type (.definition h)
  | _ => return .of i.type (.text i.text)

def newBlock (r : RegistryId) (h : Handle) : Edit (Except Error BlockId) := do
  match ← onRegistry r fun x => x.retain h with
  | .error e => return .error e
  | .ok _ =>
    let registry := (← get).registry r
    match registry.kind? h with
    | none => crash (.error (.access .absent))
    | some k =>
      let d := registry.kind k
      let slots ← (d.inputs.filter (·.type.hasSlot)).mapM (newSlot r d.id)
      let b ← ofState fun p => p.addBlock
        { registry := r, handle := h, kind := k, slots := slots, parent := none }
      return .ok b

def copyFault (e : Error) : Fault := .message ("Block.Copy: " ++ e.message)

def copySlot (copy : BlockId → Edit BlockId) (r : RegistryId) (s : Slot) : Edit Slot := do
  match s.type with
  | .block =>
    match s.block with
    | none => crash (.error (.access .absent))
    | some c => return { s.bare with block := some (← copy c) }
  | .definition =>
    if s.definition.isZero then return s.bare
    else
      match ← onRegistry r fun x => x.copyDefinition s.definition with
      | .ok h => return { s.bare with definition := h }
      | .error e => crash (copyFault e)
  | _ => return s.bare

/-- A deep copy: nested blocks and definitions are copied, the kind is shared. -/
def copyTree : Nat → BlockId → Option BlockId → Edit BlockId
  | 0, _, _ => crash (.error (.access .absent))
  | n + 1, b, parent => do
    let x ← block b
    match ← onRegistry x.registry fun r => r.retain x.handle with
    | .error e => crash (copyFault e)
    | .ok _ =>
      let c ← ofState fun p => p.addBlock { x with slots := [], parent := parent, left := [] }
      let slots ← x.slots.mapM (copySlot (fun b => copyTree n b (some c)) x.registry)
      modify fun p => p.setBlock c { x with slots := slots, parent := parent, left := [] }
      return c

def copyBlock (b : BlockId) (parent : Option BlockId) : Edit BlockId := do
  copyTree ((← get).blocks.size + 1) b parent

/-! ## Slots -/

def slot (b : BlockId) (i : Int) : Edit Slot := do
  let x ← block b
  match (if 0 ≤ i then x.slots[i.toNat]? else none) with
  | some s => return s
  | none => crash (.error (.access (.ofIndex i x.slots.length)))

/-- Replaces the payload of a slot that was made for `input`, freeing the old one. Another slot
    refuses and stays as it is. -/
def replace (name : Text) (input : InputType) (b : BlockId) (i : Int) (payload : Payload) :
    Edit Unit := do
  let s ← slot b i
  if s.input = input then
    let x ← block b
    modify fun p => (p.clearPayload x.registry s).setSlot b i.toNat (s.cleared.hold payload)
  else
    crash (.message ("Slot." ++ name ++ ": illegal on " ++ s.type.name ++ " slot"))

def setText (b : BlockId) (i : Int) (t : Text) : Edit Unit :=
  replace "SetText" .argument b i (.text t)

def setConst (b : BlockId) (i : Int) (t : Text) : Edit Unit :=
  replace "SetConst" .dropdown b i (.const t)

/-- The slot takes over the caller's reference. -/
def setDefinition (b : BlockId) (i : Int) (h : Handle) : Edit Unit :=
  replace "SetDefinition" .definition b i (.definition h)

/-- Nests a block. The slot owns it from now on. -/
def nest (b : BlockId) (i : Int) (child : BlockId) : Edit Unit := do
  replace "SetBlock" .argument b i (.block child)
  modify fun p => p.relink child (some b)

/-- Takes the nested block out of a slot and leaves empty text. -/
def takeBlock (b : BlockId) (i : Int) : Edit (Option BlockId) := do
  let s ← slot b i
  match s.type with
  | .block =>
    modify fun p => p.setSlot b i.toNat s.taken
    match s.block with
    | none => crash (.error (.access .absent))
    | some c =>
      let x ← block c
      modify fun p => p.setBlock c { x with parent := none }
      return some c
  | _ => return none

def clear (b : BlockId) (i : Int) : Edit Unit := do
  let s ← slot b i
  let x ← block b
  modify fun p =>
    (p.clearPayload x.registry s).setSlot b i.toNat s.emptied

end Edit

end BlockEngine
