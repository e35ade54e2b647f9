/-
  BlockEngine.Toml.Basic — what a TOML document is made of.

  A document is a list of statements as they are written: table headers and pairs of a key and a
  value. What they define together is the business of `Toml.Document`.
-/

import BlockEngine.Double.Basic
import BlockEngine.Table

namespace BlockEngine.Toml

abbrev Key := List Text

inductive Scalar where
  | text (t : Text)
  | integer (n : Int)
  | float (x : Double)
  | boolean (b : Bool)
  /-- A date, a time of day or both, as written. -/
  | moment (t : Text)

inductive Expr where
  | scalar (s : Scalar)
  | array (items : List Expr)
  | inline (pairs : List (Key × Expr))

inductive Statement where
  /-- `[key]` -/
  | table (key : Key)
  /-- `[[key]]` -/
  | nextTable (key : Key)
  | pair (key : Key) (value : Expr)

namespace Key

def isBare (b : UInt8) : Bool :=
  (0x41 ≤ b && b ≤ 0x5A) || (0x61 ≤ b && b ≤ 0x7A) || (0x30 ≤ b && b ≤ 0x39) ||
    b == Text.byte '_' || b == Text.byte '-'

def escapeByte (b : UInt8) : Text :=
  match b with
  | 0x08 => "\\b"
  | 0x09 => "\\t"
  | 0x0A => "\\n"
  | 0x0C => "\\f"
  | 0x0D => "\\r"
  | 0x22 => "\\\""
  | 0x5C => "\\\\"
  | _ => if b < 0x20 ∨ b = 0x7F then "\\u00" ++ Text.hexByte b else [b]

/-- A part as it is, or between double quotes if it cannot stand bare. -/
def partText (t : Text) : Text :=
  if t.isEmpty || !t.all isBare then
    [Text.byte '"'] ++ t.flatMap escapeByte ++ [Text.byte '"']
  else t

def toText (k : Key) : Text := Text.join [Text.byte '.'] (k.map partText)

end Key

end BlockEngine.Toml
