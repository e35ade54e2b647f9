/-
  BlockEngine.Error — what can go wrong, and how it is worded.

  An `Error` is a cause. Evaluation errors name the block that failed (`inBlock`). A `Fault` ends
  whatever is going on at once; most faults are errors, a few are only a message.
-/

import BlockEngine.Text.Quoted

namespace BlockEngine

inductive BlockType where
  | normal
  /-- Opens a body. -/
  | control
  /-- Closes a body and opens another at the same depth. -/
  | continuation
  /-- Closes a body. -/
  | terminator
  /-- Starts an entry chain. -/
  | hat
  deriving DecidableEq, Repr

namespace BlockType

def name : BlockType → Text
  | .normal => "normal"
  | .control => "control"
  | .continuation => "control-end"
  | .terminator => "end"
  | .hat => "hat"

def ofCode? : Nat → Option BlockType
  | 0 => some .normal
  | 1 => some .control
  | 2 => some .continuation
  | 3 => some .terminator
  | 4 => some .hat
  | _ => none

def nameOf (code : UInt8) : Text :=
  match ofCode? code.toNat with
  | some t => t.name
  | none => "unknown"

def opens (t : BlockType) : Bool := t == .control || t == .continuation

def closes (t : BlockType) : Bool := t == .terminator || t == .continuation

end BlockType

/-- Addresses a definition in a registry. The generation tells a record from its later reuses; 0
    belongs to no record. -/
structure Handle where
  index : UInt32
  generation : UInt32
  deriving DecidableEq, Repr

namespace Handle

def zero : Handle := ⟨0, 0⟩

def isZero (h : Handle) : Bool := h.generation == 0

def toText (h : Handle) : Text :=
  if h.isZero then "def(-)"
  else "def(" ++ Text.ofNat h.index.toNat ++ "." ++ Text.ofNat h.generation.toNat ++ ")"

end Handle

inductive StackName where
  | operand
  | control
  | variable
  | call
  | other (name : Text)
  deriving DecidableEq

def StackName.name : StackName → Text
  | .operand => "operand"
  | .control => "control"
  | .variable => "variable"
  | .call => "call"
  | .other t => t

inductive StackOp where
  | push
  | pop
  | frame
  | other (name : Text)
  deriving DecidableEq

def StackOp.name : StackOp → Text
  | .push => "push"
  | .pop => "pop"
  | .frame => "frame"
  | .other t => t

/-- A stack that is full, empty, or topped by a frame of the wrong sort. -/
structure StackError where
  stack : StackName
  op : StackOp
  capacity : Int
  deriving DecidableEq

def StackError.message (e : StackError) : Text :=
  match e.op with
  | .push => e.stack.name ++ " stack overflow (capacity " ++ Text.ofInt e.capacity ++ ")"
  | .frame => e.stack.name ++ " stack frame mismatch"
  | _ => e.stack.name ++ " stack underflow"

inductive CancelCause where
  | stopped
  | cancelled
  | deadline
  deriving DecidableEq, Repr

def CancelCause.message : CancelCause → Text
  | .stopped => "stopped"
  | .cancelled => "context canceled"
  | .deadline => "context deadline exceeded"

inductive AccessError where
  /-- An element past the end. -/
  | index (i length : Nat)
  /-- An element before the start. -/
  | negativeIndex (i : Int)
  /-- A segment that ends past the end. -/
  | segment (stop capacity : Nat)
  /-- Nothing is there at all. -/
  | absent
  deriving DecidableEq

def AccessError.ofIndex (i : Int) (length : Nat) : AccessError :=
  if i < 0 then .negativeIndex i else .index i.toNat length

def AccessError.message : AccessError → Text
  | .index i n =>
    "runtime error: index out of range [" ++ Text.ofNat i ++ "] with length " ++ Text.ofNat n
  | .negativeIndex i => "runtime error: index out of range [" ++ Text.ofInt i ++ "]"
  | .segment stop capacity =>
    "runtime error: slice bounds out of range [:" ++ Text.ofNat stop ++ "] with capacity " ++
      Text.ofNat capacity
  | .absent => "runtime error: invalid memory address or nil pointer dereference"

inductive Error where
  | noNative
  /-- A slot holds what is no operand. -/
  | unsupportedSlot (type : Text)
  | unlinked
  | notControl
  | badJump
  | cancelled (cause : CancelCause)
  | alreadyRunning
  | execInUse
  | stale (h : Handle)
  | stack (e : StackError)
  /-- A continuation where no body is open. -/
  | dangling (id : Text) (position : Nat)
  /-- A terminator where no body is open. -/
  | unmatched (id : Text) (position : Nat)
  | unclosed (count : Nat)
  /-- No run of blocks starts at a block that closes a body. -/
  | closingStart (type : BlockType) (id : Text)
  | outOfRange (position : Int)
  | unknownVariable (name : Text)
  | unknownComparison (symbol : Text)
  | access (e : AccessError)
  /-- A cause that is only worded. -/
  | worded (text : Text)
  /-- A fault that was only a message. -/
  | crashed (text : Text)
  /-- The block that failed, its position in its chain or a negative number, and why. -/
  | inBlock (id : Text) (position : Int) (cause : Error)
  deriving DecidableEq

namespace Error

def message : Error → Text
  | .noNative => "block has no native function"
  | .unsupportedSlot t => "unsupported argument slot: " ++ t
  | .unlinked => "procedure is not linked to a chain"
  | .notControl => "not a chain-level control block"
  | .badJump => "jump target out of range"
  | .cancelled c => "run cancelled: " ++ c.message
  | .alreadyRunning => "a program is already running"
  | .execInUse => "a program is already running: exec is in use"
  | .stale h => "stale definition handle: " ++ h.toText
  | .stack e => e.message
  | .dangling id i =>
    "unbalanced control blocks: dangling " ++ id.quoted ++ " at " ++ Text.ofNat i
  | .unmatched id i =>
    "unbalanced control blocks: unmatched " ++ id.quoted ++ " at " ++ Text.ofNat i
  | .unclosed n => "unbalanced control blocks: " ++ Text.ofNat n ++ " unclosed block(s)"
  | .closingStart t id =>
    "unbalanced control blocks: run cannot start at " ++ t.name ++ " block " ++ id.quoted
  | .outOfRange i => "block position out of range: " ++ Text.ofInt i
  | .unknownVariable name => "unknown variable: " ++ name.quoted
  | .unknownComparison symbol => "unknown comparison " ++ symbol.quoted
  | .access e => e.message
  | .worded t => t
  | .crashed t => "panic: " ++ t
  | .inBlock id i cause =>
    if i < 0 then "block " ++ id.quoted ++ ": " ++ cause.message
    else "block " ++ id.quoted ++ " at " ++ Text.ofInt i ++ ": " ++ cause.message

def root : Error → Error
  | .inBlock _ _ cause => cause.root
  | e => e

def site? : Error → Option (Text × Int)
  | .inBlock id i _ => some (id, i)
  | _ => none

def isCancellation (e : Error) : Bool :=
  match e.root with
  | .cancelled _ => true
  | _ => false

/-- Attributes an error to a block, unless it is attributed already or is a cancellation. -/
def blame (id : Text) (position : Int) (e : Error) : Error :=
  if e.site?.isSome || e.isCancellation then e else .inBlock id position e

end Error

/-- What ends everything at once, up to whoever started it. -/
inductive Fault where
  | error (e : Error)
  | message (t : Text)
  deriving DecidableEq

def Fault.toError : Fault → Error
  | .error e => e
  | .message t => .crashed t

end BlockEngine
