/-
  BlockEngine.Text.Integer — integers spelled in any base.

  A mark in front says the base: `0b`, `0o` or `0` alone, `0x`; without one it is ten. Underscores
  may stand between digits. Digits are taken in order, so that of two faults the one further left
  counts.
-/

import BlockEngine.Double.Numeral

namespace BlockEngine.Text.Integer

inductive Flaw where
  | malformed
  | outOfRange
  deriving DecidableEq

/-- The base of some digits, and the digits after its mark. -/
def base (t : Text) : Nat × Text :=
  match t with
  | 0x30 :: rest =>
    match rest with
    | mark :: d :: more =>
      let mark := Text.lower [mark]
      if mark = [Text.byte 'b'] then (2, d :: more)
      else if mark = [Text.byte 'o'] then (8, d :: more)
      else if mark = [Text.byte 'x'] then (16, d :: more)
      else (8, rest)
    | _ => (8, rest)
  | _ => (10, t)

/-- The number of some digits after `n`, which fits a word of 64 bits. Underscores are passed. -/
def magnitude (base : Nat) : Nat → Text → Except Flaw Nat
  | n, [] => .ok n
  | n, b :: rest =>
    if b = Text.byte '_' then magnitude base n rest
    else
      match Text.hexDigit? b with
      | none => .error .malformed
      | some d =>
        if base ≤ d then .error .malformed
        else if 2 ^ 64 ≤ n * base + d then .error .outOfRange
        else magnitude base (n * base + d) rest

def ofText (t : Text) : Except Flaw Int := do
  let (negative, unsigned) := Numeral.sign t
  if unsigned.isEmpty then .error .malformed
  else
    let (base, digits) := base unsigned
    let n ← magnitude base 0 digits
    if t.contains (Text.byte '_') && !Numeral.underscoresOk unsigned then .error .malformed
    else if negative then if 2 ^ 63 < n then .error .outOfRange else .ok (-(n : Int))
    else if 2 ^ 63 ≤ n then .error .outOfRange
    else .ok n

end BlockEngine.Text.Integer
