/-
  BlockEngine.Value.Coercion — values read as numbers, truth values and texts.

  Texts are read as numerals after white space at their ends is dropped; what spells no number
  counts as 0. Lists count as their length. The display form of a list is that of its elements
  in brackets.
-/

import BlockEngine.Double.Numeral
import BlockEngine.Double.Shortest
import BlockEngine.Text.Blank
import BlockEngine.Value.Basic

namespace BlockEngine

/-- The double that a text spells, white space at its ends apart. -/
def Text.double? (t : Text) : Option Double := do
  let n ← Numeral.numeral? t.trim
  n.toDouble?

/-- The integer that a text spells: a plain decimal, or else a numeral without its fraction. What
    spells no number counts as 0; `none` is for a number that does not fit. -/
def Text.toInt64? (t : Text) : Option Int64 :=
  match Numeral.int64? t.trim with
  | some n => some n
  | none =>
    match t.double? with
    | some x => x.toInt64?
    | none => some 0

/-- Texts that count as false: none, zero and the word, in any case. -/
def Text.isFalse (t : Text) : Bool :=
  let t := t.trim.lower
  t.isEmpty || t == "0" || t == "false"

namespace Scalar

def toInt64? : Scalar → Option Int64
  | .int n => some n
  | .bool b => some (if b then 1 else 0)
  | .double x => x.toInt64?
  | .str t => t.toInt64?
  | _ => some 0

def toDouble : Scalar → Double
  | .int n => .ofInt n.toInt
  | .bool b => .ofInt (if b then 1 else 0)
  | .double x => x
  | .str t => t.double?.getD .zero
  | _ => .zero

def toBool : Scalar → Bool
  | .int n => n != 0
  | .bool b => b
  | .double x => !x.isZero
  | .str t => !t.isFalse
  | _ => false

def isNumeric : Scalar → Bool
  | .int _ => true
  | .double _ => true
  | .str t => t.double?.isSome
  | _ => false

def toText : Scalar → Text
  | .nothing => []
  | .int n => Text.ofInt n.toInt
  | .double x => x.toText
  | .str t => t
  | .bool b => if b then "true" else "false"
  | .control m => "<" ++ m.name ++ ">"
  | .chain _ => "<chain>"
  | .omitted => "<omit>"

end Scalar

namespace Value

def toInt64? : Value → Option Int64
  | .scalar _ s => s.toInt64?
  | .list _ _ items => some (Int64.ofNat items.length)

/-- The value as an integer; a number that does not fit becomes the least one. -/
def toInt64 (v : Value) : Int64 := v.toInt64?.getD Int64.minValue

def toDouble : Value → Double
  | .scalar _ s => s.toDouble
  | .list _ _ items => .ofInt items.length

def toBool : Value → Bool
  | .scalar _ s => s.toBool
  | .list _ _ items => !items.isEmpty

def isNumeric : Value → Bool
  | .scalar _ s => s.isNumeric
  | .list .. => false

mutual

def toText : Value → Text
  | .scalar _ s => s.toText
  | .list _ _ items => "[" ++ Text.join ", " (texts items) ++ "]"

def texts : List Value → List Text
  | [] => []
  | v :: vs => v.toText :: texts vs

end

/-! ## Comparison -/

/-- Equality of values that are not both lists: of numbers by number, of others by display form. -/
def equalFlat (a b : Value) : Bool :=
  if a.isNumeric && b.isNumeric then a.toDouble.eq b.toDouble else a.toText == b.toText

mutual

/-- Lists are equal element by element, other values by number or display form. -/
def equal : Value → Value → Bool
  | .list _ _ xs, .list _ _ ys => equalAll xs ys
  | .list o c xs, .scalar p t => equalFlat (.list o c xs) (.scalar p t)
  | .scalar o s, b => equalFlat (.scalar o s) b

def equalAll : List Value → List Value → Bool
  | [], [] => true
  | x :: xs, y :: ys => equal x y && equalAll xs ys
  | _, _ => false

end

/-- Numbers are ordered by number, all else by display form. Against a NaN nothing is less or
    greater. -/
def order (a b : Value) : Ordering :=
  if a.isNumeric && b.isNumeric then
    if a.toDouble.lt b.toDouble then .lt
    else if b.toDouble.lt a.toDouble then .gt
    else .eq
  else a.toText.order b.toText

end Value

end BlockEngine
