/-
  BlockEngine.Library.Control — conditionals and loops.

  The first operand of a control block is its marker. On closing, the second is what the block
  yielded on entry; a continuation gets the value of the branch before it as its second operand.
  A conditional that ran its body closes with the value that leaves arguments out, which tells
  the continuations after it to skip theirs.
-/

import BlockEngine.Native
import BlockEngine.Value.Coercion

namespace BlockEngine.Library

open Proc

def nop : Native := fun _ => return .nothing

def skipWith (v : Value) : Proc Value := do
  skipBody
  return v

def ifBlock : Native := fun args => do
  match ← marker (← operand args 0) with
  | .closing =>
    if (← operand args 1).toBool then return .omitted else return .ofBool false
  | .opening =>
    if (args[1]?.map (·.toBool)).getD false then return .ofBool true
    else skipWith (.ofBool false)

/-- Skips its condition and its body after a branch that ran. -/
def elseIfBlock : Native := fun args => do
  let prior ← operand args 1
  match ← marker (← operand args 0) with
  | .closing =>
    if prior.isOmitted || prior.toBool then return .omitted else return .ofBool false
  | .opening =>
    if prior.isOmitted then skipWith .omitted
    else if (args[2]?.map (·.toBool)).getD false then return .ofBool true
    else skipWith (.ofBool false)

def elseBlock : Native := fun args => do
  let prior ← operand args 1
  match ← marker (← operand args 0) with
  | .closing => if prior.isOmitted then return .omitted else return .nothing
  | .opening => if prior.isOmitted then skipWith .omitted else return .ofBool true

/-- Jumps back to the block itself. -/
def again : Proc Unit := do
  jumpTo (← glimpse).index

def loopBlock : Native := fun args => do
  match ← marker (← operand args 0) with
  | .closing =>
    again
    return .nothing
  | .opening => return .ofBool true

def whileBlock : Native := fun args => do
  match ← marker (← operand args 0) with
  | .closing =>
    if (← operand args 1).toBool then again
    return .nothing
  | .opening =>
    if (args[1]?.map (·.toBool)).getD false then return .ofBool true
    else skipWith (.ofBool false)

/-- Keeps the number of passes left under its own frame. Passes after the first re-enter it
    without the count. -/
def repeatBlock : Native := fun args => do
  match ← marker (← operand args 0) with
  | .closing =>
    if (← operand args 1).toBool then
      let left := (← popData).toInt64
      if 0 < left then
        pushData (.ofInt (left - 1))
        again
        return .omitted
      else return .nothing
    else return .nothing
  | .opening =>
    match args[1]? with
    | none => return .ofBool true
    | some count =>
      let n := count.toInt64
      if n ≤ 0 then skipWith (.ofBool false)
      else
        pushData (.ofInt (n - 1))
        return .ofBool true

end BlockEngine.Library
