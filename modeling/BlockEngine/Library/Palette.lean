/-
  BlockEngine.Library.Palette — the standard blocks.

  `standard` lists them in palette order. The terminator comes first, so it becomes the implicit
  one of a registry that has none.
-/

import BlockEngine.Library.Control
import BlockEngine.Library.Data
import BlockEngine.Registry.Basic
import BlockEngine.Table

namespace BlockEngine.Library

/-! ## Colors by category -/

def eventColor : Text := "#ffbf00"

def controlColor : Text := "#ffab19"

def looksColor : Text := "#9966ff"

def variableColor : Text := "#ff8c1a"

def operatorColor : Text := "#59c059"

def procedureColor : Text := "#ff6680"

/-! ## Shapes -/

def label (t : Text) : Input := { type := .text, text := t }

def arg (t : Text) : Input := { type := .argument, text := t }

def comparisons : Input := { type := .dropdown, options := ["<", "=", ">"] }

def kind (id color : Text) (type : BlockType) (inputs : List Input) (native : Native) :
    Definition :=
  { id, color, type, inputs, native := some native }

def standard : List Definition :=
  [ kind "end" controlColor .terminator [label "end"] nop,
    kind "when_run" eventColor .hat [label "when run"] nop,
    kind "define" procedureColor .hat [label "define", { type := .definition }] nop,
    kind "return" procedureColor .normal [label "return", arg []] returnBlock,
    kind "if" controlColor .control [label "if", arg [], label "then"] ifBlock,
    kind "else_if" controlColor .continuation [label "else if", arg [], label "then"] elseIfBlock,
    kind "else" controlColor .continuation [label "else"] elseBlock,
    kind "loop" controlColor .control [label "forever"] loopBlock,
    kind "repeat" controlColor .control [label "repeat", arg "10"] repeatBlock,
    kind "while" controlColor .control [label "while", arg []] whileBlock,
    kind "print" looksColor .normal [label "print", arg []] printBlock,
    kind "declare" variableColor .normal [label "declare", arg "x", label "=", arg "0"]
      declareBlock,
    kind "set" variableColor .normal [label "set", arg "x", label "to", arg "0"] setBlock,
    kind "get" variableColor .normal [arg "x"] getBlock,
    kind "add" operatorColor .normal [arg "0", label "+", arg "0"] addBlock,
    kind "less" operatorColor .normal [arg "0", label "<", arg "0"] lessBlock,
    kind "equal" operatorColor .normal [arg "0", label "=", arg "0"] equalBlock,
    kind "join" operatorColor .normal [label "join", arg [], arg []] joinBlock,
    kind "compare" operatorColor .normal [arg "0", comparisons, arg "0"] compareBlock ]

def native? (id : Text) : Option Native := do
  let d ← standard.find? (·.id == id)
  d.native

def registerAll : List Definition → Registry → Table Handle × Registry
  | [], r => ([], r)
  | d :: rest, r =>
    let (h, r) := r.register d
    let (hs, r) := registerAll rest r
    ((d.id, h) :: hs, r)

end BlockEngine.Library
