/-
  BlockEngine.Toml.Quoted — texts between quotes.

  Between double quotes a backslash starts an escape; between single quotes it is itself. Either
  kind of quotes may be tripled, and then the text may span lines: a line break right after the
  opening quotes is dropped, and up to two more quotes may stand before the closing ones.
-/

import BlockEngine.Text.Basic

namespace BlockEngine.Toml

/-- Takes something off the front of a text, if it is there. -/
abbrev Reader (α : Type) := Text → Option (α × Text)

def isBlank (b : UInt8) : Bool := b == 0x20 || b == 0x09

/-- Half of a line break, at least: a carriage return is always followed by a line feed. -/
def isBreak (b : UInt8) : Bool := b == 0x0A || b == 0x0D

namespace Quoted

def double : UInt8 := Text.byte '"'

def single : UInt8 := Text.byte '\''

def backslash : UInt8 := Text.byte '\\'

def hexCode? (n : Nat) (t : Text) : Option Nat :=
  let digits := t.take n
  if digits.length < n then none
  else digits.foldlM (fun c b => (Text.hexDigit? b).map (c * 16 + ·)) 0

def character? (c : Nat) : Option Text :=
  if c < 0xD800 ∨ (0xE000 ≤ c ∧ c < 0x110000) then some (Text.ofCode c) else none

/-- A code of `n` digits after its letter: what it stands for, and the bytes that it takes. -/
def coded? (n : Nat) (t : Text) : Option (Text × Nat) := do
  let c ← hexCode? n t
  let bytes ← character? c
  some (bytes, n + 1)

/-- What a backslash and the text after it stand for, and how many bytes of the latter it takes. -/
def escape? : Text → Option (Text × Nat)
  | [] => none
  | b :: rest =>
    match Char.ofNat b.toNat with
    | 'b' => some ([0x08], 1)
    | 't' => some ([0x09], 1)
    | 'n' => some ([0x0A], 1)
    | 'f' => some ([0x0C], 1)
    | 'r' => some ([0x0D], 1)
    | 'e' => some ([0x1B], 1)
    | '"' => some ([double], 1)
    | '\\' => some ([backslash], 1)
    | 'x' => coded? 2 rest
    | 'u' => coded? 4 rest
    | 'U' => coded? 8 rest
    | _ => none

/-- The rest of a text on one line after its opening double quote. -/
def basic : Reader Text
  | [] => none
  | b :: rest =>
    if b = double then some ([], rest)
    else if isBreak b then none
    else if b = backslash then
      match escape? rest with
      | none => none
      | some (bytes, n) => (basic (rest.drop n)).map fun r => (bytes ++ r.1, r.2)
    else (basic rest).map fun r => (b :: r.1, r.2)
termination_by t => t.length
decreasing_by
  · simp only [List.length_drop, List.length_cons]; omega
  · simp

/-- The rest of a text on one line after its opening single quote. -/
def verbatim : Reader Text
  | [] => none
  | b :: rest =>
    if b = single then some ([], rest)
    else if isBreak b then none
    else (verbatim rest).map fun r => (b :: r.1, r.2)

/-- White space and line breaks, which a backslash takes away if there is a break among them. -/
def isSpace (b : UInt8) : Bool := isBlank b || isBreak b

/-- How many quotes may stand at the end of a text that spans lines, the closing ones included;
    one more after an escaped backslash. -/
def mostQuotes (afterBackslash : Bool) : Nat := if afterBackslash then 6 else 5

def basicLines (afterBackslash : Bool) : Reader Text
  | [] => none
  | b :: rest =>
    if b = double then
      let more := (rest.takeWhile (· == double)).length
      let after := rest.drop more
      let quotes := more + 1
      if quotes < 3 then
        (basicLines false after).map fun r => (List.replicate quotes double ++ r.1, r.2)
      else if quotes ≤ mostQuotes afterBackslash then
        some (List.replicate (quotes - 3) double, after)
      else none
    else if b = backslash then
      let gap := rest.takeWhile isSpace
      if gap.isEmpty then
        match escape? rest with
        | none => none
        | some (bytes, n) =>
          (basicLines (bytes == [backslash] && n == 1) (rest.drop n)).map fun r =>
            (bytes ++ r.1, r.2)
      else if gap.contains 0x0A then basicLines false (rest.drop gap.length)
      else none
    else (basicLines false rest).map fun r => (b :: r.1, r.2)
termination_by t => t.length
decreasing_by
  all_goals simp only [List.length_drop, List.length_cons]; omega

def verbatimLines : Reader Text
  | [] => none
  | b :: rest =>
    if b = single then
      let more := (rest.takeWhile (· == single)).length
      let after := rest.drop more
      let quotes := more + 1
      if quotes < 3 then
        (verbatimLines after).map fun r => (List.replicate quotes single ++ r.1, r.2)
      else if quotes ≤ 5 then some (List.replicate (quotes - 3) single, after)
      else none
    else (verbatimLines rest).map fun r => (b :: r.1, r.2)
termination_by t => t.length
decreasing_by
  all_goals simp only [List.length_drop, List.length_cons]; omega

def afterBreak : Text → Text
  | 0x0A :: rest => rest
  | 0x0D :: 0x0A :: rest => rest
  | t => t

def line : Reader Text
  | [] => none
  | b :: rest =>
    if b = double then basic rest
    else if b = single then verbatim rest
    else none

def any (t : Text) : Option (Text × Text) :=
  if let some rest := Text.after? [double, double, double] t then
    basicLines false (afterBreak rest)
  else if let some rest := Text.after? [single, single, single] t then
    verbatimLines (afterBreak rest)
  else line t

end Quoted

end BlockEngine.Toml
