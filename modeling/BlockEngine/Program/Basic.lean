/-
  BlockEngine.Program.Basic — placed blocks and the chains they form.

  A block is a placed instance of a definition. It has one slot for each input that takes one. A slot has
  a field for each sort of payload, and a type that says which of them counts. A chain is a sequence of
  blocks from top to bottom. A program holds all registries, blocks and chains there are; blocks and chains
  are known by their numbers, so one block may be reached in several ways and is one block.

  An `Edit` changes a program and yields a result, or breaks down with a fault; what was changed
  before the fault stays changed.
-/

import BlockEngine.Registry.Basic

namespace BlockEngine

abbrev BlockId := Nat

abbrev RegistryId := Nat

inductive SlotType where
  | text
  | block
  | const
  | definition
  /-- No sort that there is a name for. -/
  | unknown
  deriving DecidableEq, Repr

namespace SlotType

def name : SlotType → Text
  | .text => "text"
  | .block => "block"
  | .const => "const"
  | .definition => "definition"
  | .unknown => "unknown"

def ofCode (code : UInt8) : SlotType :=
  match code.toNat with
  | 0 => .text
  | 1 => .block
  | 2 => .const
  | 3 => .definition
  | _ => .unknown

def blank : InputType → SlotType
  | .dropdown => .const
  | .definition => .definition
  | _ => .text

end SlotType

inductive Payload where
  | text (t : Text)
  | block (b : BlockId)
  /-- A dropdown's choice. -/
  | const (t : Text)
  /-- A definition under edit; zero for none. -/
  | definition (h : Handle)

namespace Payload

def type : Payload → SlotType
  | .text _ => .text
  | .block _ => .block
  | .const _ => .const
  | .definition _ => .definition

def typeName (x : Payload) : Text := x.type.name

def typeNameOf (code : UInt8) : Text := (SlotType.ofCode code).name

end Payload

/-- A slot as it is stored, with a field for each sort of payload. -/
structure Slot where
  input : InputType
  type : SlotType := .text
  text : Text := []
  block : Option BlockId := none
  definition : Handle := .zero

namespace Slot

/-- What a slot holds, by its type. Where the type does not say, or says that there is a block and there
    is none, the text is left. -/
def payload (s : Slot) : Payload :=
  match s.type, s.block with
  | .block, some b => .block b
  | .const, _ => .const s.text
  | .definition, _ => .definition s.definition
  | _, _ => .text s.text

/-- Sets the type and the one field that goes with a payload. -/
def hold (s : Slot) : Payload → Slot
  | .text t => { s with type := .text, text := t }
  | .block b => { s with type := .block, block := some b }
  | .const t => { s with type := .const, text := t }
  | .definition h => { s with type := .definition, definition := h }

def of (i : InputType) (x : Payload) : Slot := hold { input := i } x

/-- What is left once the payload was freed. The type is still what it was. -/
def cleared (s : Slot) : Slot :=
  match s.type with
  | .block => { s with text := [], block := none }
  | .definition => { s with text := [], definition := .zero }
  | _ => { s with text := [] }

/-- What is left once the block was taken out. -/
def taken (s : Slot) : Slot := { s with type := .text, text := [], block := none }

/-- A slot that was cleared and gets the type of an empty one. -/
def emptied (s : Slot) : Slot := { s.cleared with type := .blank s.input }

/-- The type and the text of a slot, without a block or a definition. -/
def bare (s : Slot) : Slot := { input := s.input, type := s.type, text := s.text }

@[simp] theorem payload_hold (s : Slot) (x : Payload) : (s.hold x).payload = x := by cases x <;> rfl

theorem payload_of_block {s : Slot} {b : BlockId} (ht : s.type = .block) (hb : s.block = some b) :
    s.payload = .block b := by
  rw [payload, ht, hb]

@[simp] theorem payload_of (i : InputType) (x : Payload) : (of i x).payload = x := payload_hold _ x

@[simp] theorem input_hold (s : Slot) (x : Payload) : (s.hold x).input = s.input := by cases x <;> rfl

@[simp] theorem input_of (i : InputType) (x : Payload) : (of i x).input = i := input_hold _ x

@[simp] theorem input_cleared (s : Slot) : s.cleared.input = s.input := by
  unfold cleared
  split <;> rfl

end Slot

structure Block where
  registry : RegistryId
  /-- Zero once the block is destroyed. -/
  handle : Handle
  kind : KindId
  slots : List Slot
  /-- The block whose slot holds this one. -/
  parent : Option BlockId
  /-- The slots that it had until it was destroyed. No block has them any more, but callers may. -/
  left : List Slot := []

structure Program where
  registries : Array Registry := #[]
  blocks : Array Block := #[]
  chains : Array (List BlockId) := #[]

namespace Program

def registry (p : Program) (r : RegistryId) : Registry := p.registries[r]?.getD {}

def chain (p : Program) (c : ChainId) : List BlockId := p.chains[c]?.getD []

def definitionOf (p : Program) (b : Block) : Definition := (p.registry b.registry).kind b.kind

def kindOf (p : Program) (b : BlockId) : Definition :=
  match p.blocks[b]? with
  | some x => p.definitionOf x
  | none => { id := [] }

def outline (p : Program) (c : ChainId) : List (BlockType × Text) :=
  (p.chain c).map fun b => ((p.kindOf b).type, (p.kindOf b).id)

def ids (p : Program) (c : ChainId) : List Text := (p.chain c).map fun b => (p.kindOf b).id

def setRegistry (r : RegistryId) (x : Registry) (p : Program) : Program :=
  { p with registries := p.registries.setIfInBounds r x }

def setBlock (b : BlockId) (x : Block) (p : Program) : Program :=
  { p with blocks := p.blocks.setIfInBounds b x }

def setChain (c : ChainId) (bs : List BlockId) (p : Program) : Program :=
  { p with chains := p.chains.setIfInBounds c bs }

def addBlock (x : Block) (p : Program) : BlockId × Program :=
  (p.blocks.size, { p with blocks := p.blocks.push x })

def addChain (bs : List BlockId) (p : Program) : ChainId × Program :=
  (p.chains.size, { p with chains := p.chains.push bs })

def onRegistry {α : Type} (r : RegistryId) (f : Registry → α × Registry) (p : Program) :
    α × Program :=
  let (a, x) := f (p.registry r)
  (a, p.setRegistry r x)

def isEntry (p : Program) (c : ChainId) : Bool :=
  match p.chain c with
  | b :: _ => (p.kindOf b).type == .hat
  | [] => false

/-- The signature that an entry chain's hat holds, if it defines a procedure. -/
def signature? (p : Program) (c : ChainId) : Option Handle :=
  match p.chain c with
  | b :: _ =>
    if (p.kindOf b).type == .hat then
      match p.blocks[b]? with
      | some x => x.slots.findSome? fun s =>
          match s.payload with
          | .definition h => if h.isZero then none else some h
          | _ => none
      | none => none
    else none
  | [] => none

end Program

/-- A change of a program with a result, or a fault. -/
abbrev Edit (α : Type) := ExceptT Fault (StateM Program) α

namespace Edit

def crash {α : Type} (f : Fault) : Edit α := throw f

def ofState {α : Type} (f : Program → α × Program) : Edit α := modifyGet f

def onRegistry {α : Type} (r : RegistryId) (f : Registry → α × Registry) : Edit α :=
  ofState fun p => p.onRegistry r f

def block (b : BlockId) : Edit Block := do
  match (← get).blocks[b]? with
  | some x => return x
  | none => crash (.error (.access .absent))

end Edit

end BlockEngine
