/-
  BlockEngine.Wire.Cbor.Filling — records from items.

  A record is filled from any map: by number or by the number's text, each field once, other keys
  passed over. Null leaves it blank, and tags without a meaning of their own make no difference.
-/

import BlockEngine.Text.Quoted
import BlockEngine.Wire.Cbor.Reading
import BlockEngine.Wire.Record

namespace BlockEngine.Wire.Record

inductive Content where
  /-- The field stays as it is. -/
  | none
  | whole (n : Int)
  | real (x : Double)
  | text (t : Text)

/-- The tag that only says that the format is CBOR. -/
def selfDescription : Nat := 55799

/-- Tags with a meaning of their own must hold what that asks for: a date is a text, a time a
    number, a large number a byte string. -/
def checkTag (number : Nat) (content : Item) : Except Flaw Unit :=
  match number, content with
  | 0, .text _ => .ok ()
  | 0, _ => .error .badTag
  | 1, .unsigned _ => .ok ()
  | 1, .negative _ => .ok ()
  | 1, .float _ => .ok ()
  | 1, _ => .error .badTag
  | 2, .bytes _ => .ok ()
  | 2, _ => .error .badTag
  | 3, .bytes _ => .ok ()
  | 3, _ => .error .badTag
  | _, _ => .ok ()

def utf8 (chunks : List Text) : Except Flaw Text :=
  if chunks.all Text.Utf8.isValid then .ok chunks.flatten else .error .notUtf8

/-- The large number that a tag makes of bytes, if it fits 64 bits. -/
def largeNumber (number : Nat) (content : Item) : Except Flaw Content :=
  match number, content with
  | 2, .bytes chunks =>
    let n := numberOf chunks.flatten
    if n < 2 ^ 64 then .ok (.whole n) else .error .mistyped
  | _, .bytes chunks =>
    let n : Int := -1 - numberOf chunks.flatten
    if -2 ^ 63 ≤ n then .ok (.whole n) else .error .mistyped
  | _, _ => .error .mistyped

def content : Item → Except Flaw Content
  | .unsigned n => .ok (.whole n)
  | .negative n => if n < 2 ^ 63 then .ok (.whole (-1 - n)) else .error .mistyped
  | .float x => .ok (.real x)
  | .text chunks => do .ok (.text (← utf8 chunks))
  | .simple n =>
    if n = 22 ∨ n = 23 then .ok .none
    else if n = 20 ∨ n = 21 then .error .mistyped
    else .ok (.whole n)
  | .tag number x =>
    if number = selfDescription then content x
    else do
      checkTag number x
      if number = 2 ∨ number = 3 then largeNumber number x else content x
  | _ => .error .mistyped

/-- A whole number within bounds, for a field that holds `old`. -/
def whole (low high old : Int) : Content → Except Flaw Int
  | .none => .ok old
  | .whole n => if low ≤ n ∧ n ≤ high then .ok n else .error .mistyped
  | _ => .error .mistyped

def real (old : Double) : Content → Except Flaw Double
  | .none => .ok old
  | .whole n => .ok (.ofInt n)
  | .real x => .ok x
  | .text _ => .error .mistyped

def string (old : Text) : Content → Except Flaw Text
  | .none => .ok old
  | .text t => .ok t
  | _ => .error .mistyped

/-- The field that a key selects, if any. Keys are integers or texts. -/
def fieldOf : Item → Except Flaw (Option Nat)
  | .unsigned n => .ok (if 1 ≤ n ∧ n ≤ 5 then some n else none)
  | .negative n => if n < 2 ^ 63 then .ok none else .error .mistyped
  | .text chunks => do
    let t ← utf8 chunks
    .ok ([1, 2, 3, 4, 5].find? fun n => t == Text.ofNat n)
  | _ => .error .mistyped

def setScalar (number : Nat) (x : Item) : Record → Except Flaw Record
  | .mk kind int double text list => do
    let c ← content x
    match number with
    | 1 => .ok (.mk (← whole 0 255 kind.toNat c).toNat.toUInt8 int double text list)
    | 2 =>
      let n ← whole (-2 ^ 63) (2 ^ 63 - 1) int.toInt c
      .ok (.mk kind (Int64.ofInt n) double text list)
    | 3 => .ok (.mk kind int (← real double c) text list)
    | _ => .ok (.mk kind int double (← string text c) list)

def setList (rs : List Record) : Record → Record
  | .mk kind int double text _ => .mk kind int double text rs

/-- An item that is neither empty nor fits: a text that is not UTF-8 is that first. -/
def misfit : Item → Flaw
  | .text chunks => if chunks.all Text.Utf8.isValid then .mistyped else .notUtf8
  | _ => .mistyped

mutual

def ofItem : Item → Except Flaw Record
  | .map entries => fill blank [] entries
  | .tag number x =>
    if number = selfDescription then ofItem x
    else do
      checkTag number x
      if number = 2 ∨ number = 3 then .error .mistyped else ofItem x
  | .simple n => if n = 22 ∨ n = 23 then .ok blank else .error .mistyped
  | x => .error (misfit x)

def listOfItem : Item → Except Flaw (List Record)
  | .array items => ofItems items
  | .tag number x =>
    if number = selfDescription then listOfItem x
    else do
      checkTag number x
      if number = 2 ∨ number = 3 then .error .mistyped else listOfItem x
  | .simple n => if n = 22 ∨ n = 23 then .ok [] else .error .mistyped
  | x => .error (misfit x)

def ofItems : List Item → Except Flaw (List Record)
  | [] => .ok []
  | x :: xs => do
    let r ← ofItem x
    let rs ← ofItems xs
    .ok (r :: rs)

/-- Fills fields from keys and values in turn, each field at most once. -/
def fill (r : Record) (seen : List Nat) : List Item → Except Flaw Record
  | k :: x :: rest => do
    match ← fieldOf k with
    | some n =>
      if seen.contains n then fill r seen rest
      else if n = 5 then
        let rs ← listOfItem x
        fill (r.setList rs) (n :: seen) rest
      else
        let r ← setScalar n x r
        fill r (n :: seen) rest
    | none => fill r seen rest
  | _ => .ok r

end

end BlockEngine.Wire.Record
