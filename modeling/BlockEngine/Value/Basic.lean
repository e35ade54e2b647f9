/-
  BlockEngine.Value.Basic — the values that blocks pass to each other.

  A value is a scalar or a list of values, and carries a tag that says who frees it. Lists also
  carry the cell their elements are stored in: lists with one cell share their elements (see
  `BlockEngine.Value.Storage`).
-/

import BlockEngine.Double.Basic
import BlockEngine.Text.Basic

namespace BlockEngine

/-- Who frees a value: nobody, the engine, or its producer. -/
inductive Ownership where
  | static
  | managed
  | unmanaged
  deriving DecidableEq, Repr

/-- How a control block is entered: from above, or again from the block that closes its body. -/
inductive Marker where
  | opening
  | closing
  deriving DecidableEq, Repr

inductive Kind where
  | nothing
  | int
  | double
  | str
  | bool
  | list
  | control
  | chain
  | omitted
  deriving DecidableEq, Repr

abbrev ChainId := Nat

/-- Where the elements of a list are stored. -/
abbrev Cell := Nat

inductive Scalar where
  | nothing
  | int (n : Int64)
  | double (x : Double)
  | str (t : Text)
  | bool (b : Bool)
  /-- The hidden operand of a control block. -/
  | control (m : Marker)
  /-- A reference to a chain, possibly to none. -/
  | chain (c : Option ChainId)
  /-- Asks that declared arguments be left out. -/
  | omitted
  deriving DecidableEq

inductive Value where
  | scalar (own : Ownership) (s : Scalar)
  | list (own : Ownership) (cell : Cell) (items : List Value)

namespace Ownership

def name : Ownership → Text
  | .static => "static"
  | .managed => "managed"
  | .unmanaged => "unmanaged"

def ofCode? : Nat → Option Ownership
  | 0 => some .static
  | 1 => some .managed
  | 2 => some .unmanaged
  | _ => none

/-- The name that goes with a code, also with one that stands for no ownership. -/
def nameOf (code : UInt8) : Text :=
  match ofCode? code.toNat with
  | some o => o.name
  | none => "ownership(" ++ Text.ofNat code.toNat ++ ")"

end Ownership

namespace Marker

def name : Marker → Text
  | .opening => "begin"
  | .closing => "end"

/-- The name that goes with a code: all but 1 mean the opening marker. -/
def nameOf (code : UInt8) : Text := if code = 1 then closing.name else opening.name

end Marker

namespace Kind

/-- The number that stands for a kind outside the engine. -/
def code : Kind → Nat
  | .nothing => 0
  | .int => 1
  | .double => 2
  | .str => 3
  | .bool => 4
  | .list => 5
  | .control => 6
  | .chain => 7
  | .omitted => 8

def ofCode? : Nat → Option Kind
  | 0 => some .nothing
  | 1 => some .int
  | 2 => some .double
  | 3 => some .str
  | 4 => some .bool
  | 5 => some .list
  | 6 => some .control
  | 7 => some .chain
  | 8 => some .omitted
  | _ => none

def name : Kind → Text
  | .nothing => "nothing"
  | .int => "int"
  | .double => "double"
  | .str => "str"
  | .bool => "bool"
  | .list => "list"
  | .control => "control"
  | .chain => "chain"
  | .omitted => "omit"

/-- The name that goes with a code, also with one that stands for no kind. -/
def nameOf (code : UInt8) : Text :=
  match ofCode? code.toNat with
  | some k => k.name
  | none => "kind(" ++ Text.ofNat code.toNat ++ ")"

end Kind

def Scalar.kind : Scalar → Kind
  | .nothing => .nothing
  | .int _ => .int
  | .double _ => .double
  | .str _ => .str
  | .bool _ => .bool
  | .control _ => .control
  | .chain _ => .chain
  | .omitted => .omitted

namespace Value

/-! ## Scalars of the engine's own making are static -/

def nothing : Value := .scalar .static .nothing

def omitted : Value := .scalar .static .omitted

def ofInt (n : Int64) : Value := .scalar .static (.int n)

def ofDouble (x : Double) : Value := .scalar .static (.double x)

def ofText (t : Text) : Value := .scalar .static (.str t)

def ofBool (b : Bool) : Value := .scalar .static (.bool b)

def ofMarker (m : Marker) : Value := .scalar .static (.control m)

def ofChain (c : Option ChainId) : Value := .scalar .static (.chain c)

/-! ## Inspection -/

def kind : Value → Kind
  | .scalar _ s => s.kind
  | .list .. => .list

def own : Value → Ownership
  | .scalar o _ => o
  | .list o _ _ => o

def withOwn (own : Ownership) : Value → Value
  | .scalar _ s => .scalar own s
  | .list _ cell items => .list own cell items

def isNothing (v : Value) : Bool := v.kind == .nothing

def isOmitted (v : Value) : Bool := v.kind == .omitted

def isControl (v : Value) : Bool := v.kind == .control

def marker? : Value → Option Marker
  | .scalar _ (.control m) => some m
  | _ => none

def chain? : Value → Option ChainId
  | .scalar _ (.chain c) => c
  | _ => none

def items : Value → List Value
  | .list _ _ items => items
  | _ => []

def length : Value → Nat
  | .list _ _ items => items.length
  | .scalar _ (.str t) => t.length
  | _ => 0

end Value

end BlockEngine
