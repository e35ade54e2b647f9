/-
  BlockEngine.Double.Numeral — how numbers are spelled.

  A numeral is a decimal (`-1.5e3`), a hexadecimal with a binary exponent (`0x1.8p1`), an
  infinity or a NaN. Underscores may stand between digits. `numeral?` reads the exact number;
  `Numeral.toDouble?` rounds it and refuses what is too large. Plain decimal integers have a
  reader of their own, `integer?`.
-/

import BlockEngine.Double.Basic
import BlockEngine.Text.Basic

namespace BlockEngine

/-- What a text spells: a number exactly, an infinity or a NaN. -/
inductive Numeral where
  | nan
  | infinite (negative : Bool)
  /-- ± `digits` · 10 ^ `exponent` -/
  | decimal (negative : Bool) (digits : Nat) (exponent : Int)
  /-- ± `digits` · 2 ^ `exponent` -/
  | binary (negative : Bool) (digits : Nat) (exponent : Int)
  deriving DecidableEq

namespace Numeral

structure Significand where
  value : Nat := 0
  /-- Digits after the point. -/
  places : Nat := 0
  point : Bool := false
  digits : Bool := false

/-- Reads digits of the given base, at most one point and any underscores. -/
def significand (base : Nat) (digit : UInt8 → Option Nat) (s : Significand) :
    Text → Significand × Text
  | [] => (s, [])
  | b :: rest =>
    if b = Text.byte '_' then significand base digit s rest
    else if b = Text.byte '.' ∧ s.point = false then
      significand base digit { s with point := true } rest
    else
      match digit b with
      | some d =>
        let places := if s.point then s.places + 1 else s.places
        significand base digit
          { s with value := s.value * base + d, places := places, digits := true } rest
      | none => (s, b :: rest)

/-- Reads the digits of an exponent. One above 10000 stops growing: no double is near it. -/
def exponentDigits (e : Nat) : Text → Nat × Text
  | [] => (e, [])
  | b :: rest =>
    if b = Text.byte '_' then exponentDigits e rest
    else
      match Text.digit? b with
      | some d => exponentDigits (if e < 10000 then e * 10 + d else e) rest
      | none => (e, b :: rest)

def sign : Text → Bool × Text
  | [] => (false, [])
  | b :: rest =>
    if b = Text.byte '-' then (true, rest)
    else if b = Text.byte '+' then (false, rest)
    else (false, b :: rest)

def exponent? (t : Text) : Option (Int × Text) :=
  let (negative, digits) := sign t
  match digits with
  | [] => none
  | b :: _ =>
    if (Text.digit? b).isSome then
      let (e, rest) := exponentDigits 0 digits
      some (if negative then -(e : Int) else e, rest)
    else none

def afterMark? (mark : Char) : Text → Option Text
  | [] => none
  | b :: rest => if Text.lower [b] = [Text.byte mark] then some rest else none

def afterHexMark? : Text → Option Text
  | z :: x :: d :: rest =>
    if z = Text.byte '0' ∧ Text.lower [x] = [Text.byte 'x'] then some (d :: rest) else none
  | _ => none

def decimal? (negative : Bool) (t : Text) : Option (Numeral × Text) :=
  let (s, rest) := significand 10 Text.digit? {} t
  if s.digits then
    match afterMark? 'e' rest with
    | some more => do
      let (e, rest) ← exponent? more
      some (.decimal negative s.value (e - s.places), rest)
    | none => some (.decimal negative s.value (-(s.places : Int)), rest)
  else none

/-- An unsigned hexadecimal numeral at the front, after its `0x`. It needs an exponent. -/
def hexadecimal? (negative : Bool) (t : Text) : Option (Numeral × Text) :=
  let (s, rest) := significand 16 Text.hexDigit? {} t
  if s.digits then do
    let more ← afterMark? 'p' rest
    let (e, rest) ← exponent? more
    some (.binary negative s.value (e - 4 * s.places), rest)
  else none

inductive Seen where
  | start
  | digit
  | underscore
  | other
  deriving DecidableEq

def underscoresSeparate (digit : UInt8 → Bool) : Seen → Text → Bool
  | seen, [] => seen != .underscore
  | seen, b :: rest =>
    if digit b then underscoresSeparate digit .digit rest
    else if b = Text.byte '_' then seen == .digit && underscoresSeparate digit .underscore rest
    else seen != .underscore && underscoresSeparate digit .other rest

/-- Every underscore of a numeral separates digits; a base mark counts as one. -/
def underscoresOk (t : Text) : Bool :=
  let t := (sign t).2
  match t with
  | z :: x :: rest =>
    let mark := Text.lower [x]
    if z = Text.byte '0' ∧ mark = [Text.byte 'x'] then
      underscoresSeparate (fun b => (Text.hexDigit? b).isSome) .digit rest
    else if z = Text.byte '0' ∧ (mark = [Text.byte 'b'] ∨ mark = [Text.byte 'o']) then
      underscoresSeparate (fun b => (Text.digit? b).isSome) .digit rest
    else underscoresSeparate (fun b => (Text.digit? b).isSome) .start t
  | _ => underscoresSeparate (fun b => (Text.digit? b).isSome) .start t

/-- The words for what is no finite number. Only an infinity takes a sign. -/
def word? (t : Text) : Option Numeral :=
  let (negative, rest) := sign t
  let rest := Text.lower rest
  if rest = ("inf" : Text) ∨ rest = ("infinity" : Text) then some (.infinite negative)
  else if Text.lower t = ("nan" : Text) then some .nan
  else none

def numeral? (t : Text) : Option Numeral :=
  match word? t with
  | some n => some n
  | none =>
    let (negative, rest) := sign t
    let read := match afterHexMark? rest with
      | some digits => hexadecimal? negative digits
      | none => decimal? negative rest
    match read with
    | some (n, []) => if t.contains (Text.byte '_') && !underscoresOk t then none else some n
    | _ => none

/-- The nearest double. A finite number whose nearest double is an infinity has none. -/
def toDouble? : Numeral → Option Double
  | .nan => some .nan
  | .infinite negative => some (.infinity negative)
  | .decimal negative digits e =>
    finite? (if 0 ≤ e then .ofRatio negative (digits * 10 ^ e.toNat) 1
      else .ofRatio negative digits (10 ^ (-e).toNat))
  | .binary negative digits e => finite? (.ofScaled negative digits e)
where
  /-- The double, unless it is an infinity. -/
  finite? (x : Double) : Option Double := if x.isInfinite then none else some x

/-- The whole number that a text of decimal digits spells, with or without a sign. -/
def integer? (t : Text) : Option Int :=
  let (negative, digits) := sign t
  if digits.isEmpty || !digits.all (fun b => (Text.digit? b).isSome) then none
  else
    let n := digits.foldl (fun n b => n * 10 + (Text.digit? b).getD 0) 0
    some (if negative then -(n : Int) else n)

def int64? (t : Text) : Option Int64 :=
  match integer? t with
  | some n => if -2 ^ 63 ≤ n ∧ n < 2 ^ 63 then some (Int64.ofInt n) else none
  | none => none

end Numeral

end BlockEngine
