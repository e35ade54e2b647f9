/-
  BlockEngine.Text.Utf8 — reading texts as UTF-8.

  `next` takes one character off the front of a text. It accepts the shortest form of each
  code point up to U+10FFFF and no surrogate; any other byte stands alone and has no code.
-/

import BlockEngine.Text.Basic

namespace BlockEngine.Text.Utf8

/-- A continuation byte's six bits. -/
def tail? (b : UInt8) : Option Nat :=
  if 0x80 ≤ b ∧ b ≤ 0xBF then some (b.toNat - 0x80) else none

def two? (a b : UInt8) : Option Nat := do
  let y ← tail? b
  if 0xC2 ≤ a ∧ a ≤ 0xDF then some ((a.toNat - 0xC0) * 0x40 + y) else none

/-- The code point of a three-byte form: not one that two bytes could write, no surrogate. -/
def three? (a b c : UInt8) : Option Nat := do
  let y ← tail? b
  let z ← tail? c
  let code := (a.toNat - 0xE0) * 0x1000 + y * 0x40 + z
  if 0xE0 ≤ a ∧ a ≤ 0xEF ∧ 0x800 ≤ code ∧ ¬(0xD800 ≤ code ∧ code ≤ 0xDFFF) then some code
  else none

/-- The code point of a four-byte form: not one that three bytes could write, at most U+10FFFF. -/
def four? (a b c d : UInt8) : Option Nat := do
  let y ← tail? b
  let z ← tail? c
  let w ← tail? d
  let code := (a.toNat - 0xF0) * 0x40000 + y * 0x1000 + z * 0x40 + w
  if 0xF0 ≤ a ∧ a ≤ 0xF4 ∧ 0x10000 ≤ code ∧ code ≤ 0x10FFFF then some code else none

/-- The code point that a non-ASCII first byte and its followers form, and its length. -/
def multi? (a : UInt8) (rest : Text) : Option (Nat × Nat) :=
  match rest with
  | [] => none
  | b :: rest =>
    match two? a b with
    | some code => some (code, 2)
    | none =>
      match rest with
      | [] => none
      | c :: rest =>
        match three? a b c with
        | some code => some (code, 3)
        | none =>
          match rest with
          | [] => none
          | d :: _ => (four? a b c d).map (·, 4)

/-- The first character of `a :: rest`: its code, if it has one, and how many bytes it takes. -/
def next (a : UInt8) (rest : Text) : Option Nat × Nat :=
  if a < 0x80 then (some a.toNat, 1)
  else
    match multi? a rest with
    | some (code, n) => (some code, n)
    | none => (none, 1)

/-- The characters of a text, each with its bytes; a byte that is part of none stands alone. -/
def decode : Text → List (Option Nat × Text)
  | [] => []
  | a :: rest =>
    let (code, n) := next a rest
    (code, a :: rest.take (n - 1)) :: decode (rest.drop (n - 1))
termination_by t => t.length
decreasing_by simp only [List.length_drop, List.length_cons]; omega

/-- Every byte belongs to a character. -/
def isValid (t : Text) : Bool := (decode t).all fun c => c.1.isSome

end BlockEngine.Text.Utf8
