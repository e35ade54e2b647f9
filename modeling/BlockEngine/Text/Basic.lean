/-
  BlockEngine.Text.Basic — texts as byte sequences.

  A text is whatever bytes a program put into it; most are UTF-8, none has to be. String
  literals stand for their UTF-8 bytes. Numbers are written in decimal.
-/

namespace BlockEngine

/-- A text is a sequence of bytes, in any encoding or none. -/
abbrev Text := List UInt8

namespace Text

def ofCode (c : Nat) : Text :=
  if c < 0x80 then [c.toUInt8]
  else if c < 0x800 then [(0xC0 + c / 0x40).toUInt8, (0x80 + c % 0x40).toUInt8]
  else if c < 0x10000 then
    [(0xE0 + c / 0x1000).toUInt8, (0x80 + c / 0x40 % 0x40).toUInt8, (0x80 + c % 0x40).toUInt8]
  else
    [(0xF0 + c / 0x40000).toUInt8, (0x80 + c / 0x1000 % 0x40).toUInt8,
      (0x80 + c / 0x40 % 0x40).toUInt8, (0x80 + c % 0x40).toUInt8]

def ofString (s : String) : Text := s.toList.flatMap fun c => ofCode c.toNat

instance : Coe String Text := ⟨ofString⟩

def byte (c : Char) : UInt8 := c.toNat.toUInt8

def ofNat (n : Nat) : Text := (Nat.toDigits 10 n).map byte

def ofInt (n : Int) : Text := if n < 0 then byte '-' :: ofNat n.natAbs else ofNat n.natAbs

def hexByte (b : UInt8) : Text :=
  [byte (Nat.digitChar (b.toNat / 16)), byte (Nat.digitChar (b.toNat % 16))]

def hex (t : Text) : Text := t.flatMap hexByte

/-- ASCII letters in lower case, all other bytes as they are. -/
def lower (t : Text) : Text := t.map fun b => if 0x41 ≤ b ∧ b ≤ 0x5A then b + 0x20 else b

def join (sep : Text) : List Text → Text
  | [] => []
  | [t] => t
  | t :: rest => t ++ sep ++ join sep rest

/-- Texts are ordered byte by byte, a proper beginning before what extends it. -/
def order : Text → Text → Ordering
  | [], [] => .eq
  | [], _ :: _ => .lt
  | _ :: _, [] => .gt
  | a :: s, b :: t => if a < b then .lt else if b < a then .gt else order s t

def digit? (b : UInt8) : Option Nat :=
  if 0x30 ≤ b ∧ b ≤ 0x39 then some (b.toNat - 0x30) else none

def hexDigit? (b : UInt8) : Option Nat :=
  if 0x30 ≤ b ∧ b ≤ 0x39 then some (b.toNat - 0x30)
  else if 0x41 ≤ b ∧ b ≤ 0x46 then some (b.toNat - 0x37)
  else if 0x61 ≤ b ∧ b ≤ 0x66 then some (b.toNat - 0x57)
  else none

/-- What follows `start` in `t`, if `t` begins with it. -/
def after? : (start t : Text) → Option Text
  | [], t => some t
  | _ :: _, [] => none
  | a :: s, b :: t => if a = b then after? s t else none

end Text

end BlockEngine
