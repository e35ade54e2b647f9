/-
  BlockEngine.Library.Data — output, variables, arithmetic and comparison.
-/

import BlockEngine.Native
import BlockEngine.Value.Coercion
import BlockEngine.Value.Storage

namespace BlockEngine.Library

open Proc

def printBlock : Native := fun args => do
  if let some e ← print (← operand args 0).toText then
    fail e
  return .nothing

def returnBlock : Native := fun args => do
  finish (← copy (← operand args 0))
  return .nothing

def declareBlock : Native := fun args => do
  let name := (← operand args 0).toText
  declare name (← copy (← operand args 1))
  return .nothing

def setBlock : Native := fun args => do
  let name := (← operand args 0).toText
  let v ← copy (← operand args 1)
  if !(← assign name v) then
    free v
    fail (.unknownVariable name)
  return .nothing

def getBlock : Native := fun args => do
  let name := (← operand args 0).toText
  match ← fetch name with
  | some v => return v
  | none =>
    fail (.unknownVariable name)
    return .nothing

/-- The value counts as a whole number: an integer, a truth value, or a text that spells a number
    without point or decimal exponent. -/
def isIntegral : Value → Bool
  | .scalar _ (.int _) => true
  | .scalar _ (.bool _) => true
  | .scalar _ (.str t) =>
    t.double?.isSome && !t.any fun b => b == Text.byte '.' || b == Text.byte 'e' ||
      b == Text.byte 'E'
  | _ => false

/-- The sum: of whole numbers in integers, modulo 2 ^ 64; of others in doubles. -/
def sum (a b : Value) : Value :=
  if isIntegral a && isIntegral b then .ofInt (a.toInt64 + b.toInt64)
  else .ofDouble (a.toDouble.add b.toDouble)

def addBlock : Native := fun args => do
  let a ← operand args 0
  let b ← operand args 1
  return sum a b

def lessBlock : Native := fun args => do
  let a ← operand args 0
  let b ← operand args 1
  return .ofBool (a.order b == .lt)

def equalBlock : Native := fun args => do
  let a ← operand args 0
  let b ← operand args 1
  return .ofBool (a.equal b)

def joinBlock : Native := fun args => do
  let a ← operand args 0
  let b ← operand args 1
  return .ofText (a.toText ++ b.toText)

/-- Compares the outer operands as the middle one says. -/
def compareBlock : Native := fun args => do
  let a ← operand args 0
  let b ← operand args 2
  let symbol := (← operand args 1).toText
  if symbol = ("<" : Text) then return .ofBool (a.order b == .lt)
  else if symbol = ("=" : Text) then return .ofBool (a.equal b)
  else if symbol = (">" : Text) then return .ofBool (a.order b == .gt)
  else
    fail (.unknownComparison symbol)
    return .nothing

end BlockEngine.Library
