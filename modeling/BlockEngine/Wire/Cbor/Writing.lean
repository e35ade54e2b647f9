/-
  BlockEngine.Wire.Cbor.Writing — how items are written.

  Writing is canonical: lengths and integers take the fewest bytes, floating-point numbers the
  shortest format that holds them exactly, and strings, arrays and maps say their length.
-/

import BlockEngine.Double.Narrow
import BlockEngine.Wire.Item

namespace BlockEngine.Wire

/-- The last `n` bytes of a number, the most significant first. -/
def bigEndian : Nat → Nat → Text
  | 0, _ => []
  | n + 1, x => bigEndian n (x / 256) ++ [(x % 256).toUInt8]

/-- The first byte of a major type with a number, and the number in the fewest bytes. -/
def head (major n : Nat) : Text :=
  if n < 24 then [(major * 32 + n).toUInt8]
  else if n < 2 ^ 8 then (major * 32 + 24).toUInt8 :: bigEndian 1 n
  else if n < 2 ^ 16 then (major * 32 + 25).toUInt8 :: bigEndian 2 n
  else if n < 2 ^ 32 then (major * 32 + 26).toUInt8 :: bigEndian 4 n
  else (major * 32 + 27).toUInt8 :: bigEndian 8 n

/-- A floating-point number in the shortest format that holds it; any NaN in sixteen bits. -/
def floatBytes (x : Double) : Text :=
  if x.isNaN then [0xF9, 0x7E, 0x00]
  else
    match x.narrow? .half with
    | some bits => 0xF9 :: bigEndian 2 bits
    | none =>
      match x.narrow? .single with
      | some bits => 0xFA :: bigEndian 4 bits
      | none => 0xFB :: bigEndian 8 x.bits.toNat

mutual

def Item.encode : Item → Text
  | .unsigned n => head 0 n
  | .negative n => head 1 n
  | .bytes chunks => head 2 chunks.flatten.length ++ chunks.flatten
  | .text chunks => head 3 chunks.flatten.length ++ chunks.flatten
  | .array items => head 4 items.length ++ encodeAll items
  | .map entries => head 5 (entries.length / 2) ++ encodeAll entries
  | .tag n content => head 6 n ++ content.encode
  | .simple n => head 7 n
  | .float x => floatBytes x

def Item.encodeAll : List Item → Text
  | [] => []
  | x :: xs => x.encode ++ encodeAll xs

end

end BlockEngine.Wire
