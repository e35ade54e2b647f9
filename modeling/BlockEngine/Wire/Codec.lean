/-
  BlockEngine.Wire.Codec — values and results of runs as bytes.

  The bytes are those of a CBOR library with canonical encoding and default decoding. What is used
  of it is a parameter here: which item it makes of a record, how it writes an item and reads one,
  and which record it fills from an item.
-/

import BlockEngine.Wire.Record

namespace BlockEngine.Wire

structure Codec where
  pack : Record → Item
  write : Item → Text
  /-- The one item that bytes stand for. -/
  read : Text → Except Flaw Item
  unpack : Item → Except Flaw Record
  /-- The records of an array. -/
  unpackAll : Item → Except Flaw (List Record)

inductive Error where
  /-- A value of a kind that is not sent; in a run's results, which result it is in. -/
  | notEncodable (result : Option Nat) (what : Text)
  /-- The bytes hold no such values. -/
  | unreadable (f : Flaw)

def Error.message : Error → Text
  | .notEncodable none what => "wire: value is not encodable: " ++ what
  | .notEncodable (some i) what =>
    "result " ++ Text.ofNat i ++ ": wire: value is not encodable: " ++ what
  | .unreadable _ => "wire: unreadable"

/-- Applies a conversion to each result, from the `i`th on. -/
def eachResult {α β : Type} (f : α → Except Text β) : Nat → List α → Except Error (List β)
  | _, [] => .ok []
  | i, x :: xs =>
    match f x with
    | .error what => .error (.notEncodable (some i) what)
    | .ok y => do
      let ys ← eachResult f (i + 1) xs
      .ok (y :: ys)

namespace Codec

variable (k : Codec)

def encode (v : Value) : Except Error Text :=
  match Record.ofValue v with
  | .ok r => .ok (k.write (k.pack r))
  | .error what => .error (.notEncodable none what)

def decode (t : Text) : Except Error Value :=
  match k.read t >>= k.unpack with
  | .error f => .error (.unreadable f)
  | .ok r =>
    match r.toValue with
    | .ok v => .ok v
    | .error what => .error (.notEncodable none what)

/-- The results of a run as one array. -/
def encodeResults (vs : List Value) : Except Error Text := do
  let rs ← eachResult Record.ofValue 0 vs
  .ok (k.write (.array (rs.map k.pack)))

def decodeResults (t : Text) : Except Error (List Value) :=
  match k.read t >>= k.unpackAll with
  | .error f => .error (.unreadable f)
  | .ok rs => eachResult Record.toValue 0 rs

end Codec

end BlockEngine.Wire
