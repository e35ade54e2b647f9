/-
  BlockEngine.Text.Quoted — texts between double quotes.

  `quoted` shows printable characters as they are and escapes the rest: a letter escape where
  there is one, `\x` for other ASCII, `\u` and `\U` for other code points, and `\x` for each
  byte that is part of no character. `quotedBytes` escapes byte by byte.
-/

import BlockEngine.Text.Printable
import BlockEngine.Text.Utf8

namespace BlockEngine.Text

def hexDigits : Nat → Nat → Text
  | 0, _ => []
  | n + 1, c => hexDigits n (c / 16) ++ [byte (Nat.digitChar (c % 16))]

def letterEscape? (c : Nat) : Option Char :=
  match c with
  | 0x07 => some 'a'
  | 0x08 => some 'b'
  | 0x09 => some 't'
  | 0x0A => some 'n'
  | 0x0B => some 'v'
  | 0x0C => some 'f'
  | 0x0D => some 'r'
  | 0x22 => some '"'
  | 0x5C => some '\\'
  | _ => none

def escape (code : Option Nat) (bytes : Text) : Text :=
  match code with
  | none => bytes.flatMap fun b => "\\x" ++ hexByte b
  | some c =>
    match letterEscape? c with
    | some l => [byte '\\', byte l]
    | none =>
      if isPrintable c then bytes
      else if c < 0x80 then "\\x" ++ hexDigits 2 c
      else if c < 0x10000 then "\\u" ++ hexDigits 4 c
      else "\\U" ++ hexDigits 8 c

def quoted (t : Text) : Text :=
  [byte '"'] ++ (Utf8.decode t).flatMap (fun c => escape c.1 c.2) ++ [byte '"']

def escapeByte (b : UInt8) : Text :=
  if b = byte '"' ∨ b = byte '\\' then [byte '\\', b]
  else if b < 0x20 ∨ 0x80 ≤ b then "\\x" ++ hexByte b
  else [b]

/-- The text in double quotes, with every control and every byte above ASCII escaped by itself. -/
def quotedBytes (t : Text) : Text := [byte '"'] ++ t.flatMap escapeByte ++ [byte '"']

end BlockEngine.Text
