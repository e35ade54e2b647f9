/-
  BlockEngine.Definition — block kinds.

  A definition is shared by all blocks of its kind: its shape, its structural type, its native
  code, and how it is linked if it belongs to a procedure.
-/

import BlockEngine.Native

namespace BlockEngine

inductive InputType where
  /-- A fixed label. -/
  | text
  /-- Free text or a nested block. -/
  | argument
  /-- One of some options. -/
  | dropdown
  /-- A definition under edit, such as a procedure's signature. It yields no operand. -/
  | definition
  /-- A fixed image. -/
  | image
  deriving DecidableEq, Repr

namespace InputType

def name : InputType → Text
  | .text => "text"
  | .argument => "argument"
  | .dropdown => "dropdown"
  | .definition => "definition"
  | .image => "image"

def hasSlot : InputType → Bool
  | .argument => true
  | .dropdown => true
  | .definition => true
  | _ => false

end InputType

structure Input where
  type : InputType
  /-- A label, the default of an argument, or an image's name. -/
  text : Text := []
  /-- The choices of a dropdown, the default first. -/
  options : List Text := []
  /-- A definition that this input owns; zero for none. -/
  child : Handle := .zero

inductive Role where
  | plain
  /-- Calls the procedure. -/
  | call
  /-- Yields the argument bound to this parameter. -/
  | parameter (index : Nat)
  deriving DecidableEq, Repr

structure Definition where
  id : Text
  color : Text := []
  hidden : Bool := false
  type : BlockType := .normal
  inputs : List Input := []
  native : Option Native := none
  role : Role := .plain
  /-- The chain that defines the procedure, once a run has linked it. -/
  owner : Option ChainId := none

def Definition.children (d : Definition) : List Handle :=
  (d.inputs.map (·.child)).filter (!·.isZero)

end BlockEngine
