/-
  BlockEngine.Config.Duration — lengths of time and how they are spelled.

  A duration is a whole number of nanoseconds that fits 64 bits. It is spelled as decimal numbers
  with units, largest to smallest when written, in any order when read: `1h30m0.5s`.
-/

import BlockEngine.Double.Basic
import BlockEngine.Text.Quoted

namespace BlockEngine.Config

/-- Nanoseconds. -/
abbrev Duration := Int

namespace Duration

def second : Nat := 1000000000

/-- The units by name, in nanoseconds. The micro sign has two code points. -/
def units : List (Text × Nat) :=
  [("ns", 1), ("us", 1000), ("µs", 1000), ("μs", 1000), ("ms", 1000000), ("s", second),
    ("m", 60 * second), ("h", 3600 * second)]

/-! ## Writing -/

/-- Decimal places of `n / 10 ^ places`, without zeros at the end and with a point before the
    first; the rest of the number. -/
def fractionText (n places : Nat) : Text × Nat :=
  let unit := 10 ^ places
  let digits := Text.ofNat (unit + n % unit)
  let part := ((digits.drop 1).reverse.dropWhile (· == Text.byte '0')).reverse
  (if part.isEmpty then [] else Text.byte '.' :: part, n / unit)

def decimalText (n places : Nat) : Text :=
  let (part, whole) := fractionText n places
  Text.ofNat whole ++ part

def longText (n : Nat) : Text :=
  let (part, seconds) := fractionText n 9
  let minutes := seconds / 60
  let hours := minutes / 60
  (if hours = 0 then [] else Text.ofNat hours ++ ("h" : Text)) ++
    (if minutes = 0 then [] else Text.ofNat (minutes % 60) ++ ("m" : Text)) ++
    Text.ofNat (seconds % 60) ++ part ++ ("s" : Text)

/-- A magnitude: less than a second in the largest unit that it reaches. -/
def magnitudeText (n : Nat) : Text :=
  if n = 0 then "0s"
  else if n < 1000 then decimalText n 0 ++ "ns"
  else if n < 1000000 then decimalText n 3 ++ "µs"
  else if n < second then decimalText n 6 ++ "ms"
  else longText n

def toText (d : Duration) : Text :=
  if d < 0 then Text.byte '-' :: magnitudeText d.natAbs else magnitudeText d.natAbs

/-! ## Reading -/

inductive Flaw where
  | invalid (whole : Text)
  | missingUnit (whole : Text)
  | unknownUnit (unit whole : Text)
  deriving DecidableEq

def Flaw.message : Flaw → Text
  | .invalid t => "time: invalid duration " ++ t.quotedBytes
  | .missingUnit t => "time: missing unit in duration " ++ t.quotedBytes
  | .unknownUnit u t => "time: unknown unit " ++ u.quotedBytes ++ " in duration " ++ t.quotedBytes

def most : Nat := 2 ^ 63

def isDigit (b : UInt8) : Bool := (Text.digit? b).isSome

def numberOf (digits : Text) : Nat :=
  digits.foldl (fun n b => n * 10 + (Text.digit? b).getD 0) 0

/-- Digits after a point, as far as they fit: their number, and how many they are. -/
def fractionOf : (n places : Nat) → Text → Nat × Nat
  | n, places, [] => (n, places)
  | n, places, b :: rest =>
    let next := n * 10 + (Text.digit? b).getD 0
    if (most - 1) / 10 < n ∨ most < next then (n, places) else fractionOf next (places + 1) rest

/-- `10 ^ places` in floating point, multiplied up step by step. -/
def scale : (places : Nat) → Double
  | 0 => .ofInt 1
  | n + 1 => (scale n).mul (.ofInt 10)

/-- The nanoseconds of a fraction of a unit: `n / 10 ^ places` units in floating point, the unit
    divided first, without what is left of a nanosecond. A scale beyond all doubles leaves none. -/
def fractionNanos (n places unit : Nat) : Nat :=
  match (scale places).truncate? with
  | some s => (((Double.ofInt n).mul (.ofRatio false unit s.toNat)).truncate?.getD 0).toNat
  | none => 0

/-- What is spelled by a number in a unit: whole digits, those after a point if there is one, and
    the unit. -/
def nanos (digits : Text) (part : Option Text) (unit : Nat) : Option Nat :=
  let whole := numberOf digits
  if most < whole ∨ most / unit < whole then none
  else
    let (n, places) := fractionOf 0 0 (part.getD [])
    let total := whole * unit + if n = 0 then 0 else fractionNanos n places unit
    if most < total then none else some total

/-- Sums up numbers with units. Each takes a byte at least, so their number is enough fuel. Sums
    are words of 64 bits: two largest magnitudes come back to zero. -/
def sum (whole : Text) : Nat → Nat → Text → Except Flaw Nat
  | _, total, [] => .ok total
  | 0, total, _ :: _ => .ok total
  | fuel + 1, total, t => do
    let digits := t.takeWhile isDigit
    let rest := t.dropWhile isDigit
    let (part, rest) := match rest with
      | b :: rest =>
        if b = Text.byte '.' then (some (rest.takeWhile isDigit), rest.dropWhile isDigit)
        else (none, b :: rest)
      | [] => (none, [])
    if most < numberOf digits ∨ (digits.isEmpty ∧ (part.getD []).isEmpty) then
      .error (.invalid whole)
    else
      let inUnit (b : UInt8) : Bool := !(b == Text.byte '.' || isDigit b)
      let name := rest.takeWhile inUnit
      if name.isEmpty then .error (.missingUnit whole)
      else
        match units.lookup name with
        | none => .error (.unknownUnit name whole)
        | some unit =>
          match nanos digits part unit with
          | none => .error (.invalid whole)
          | some n =>
            let total := (total + n) % 2 ^ 64
            if most < total then .error (.invalid whole)
            else sum whole fuel total (rest.dropWhile inUnit)

def ofText (t : Text) : Except Flaw Duration := do
  let (negative, rest) := match t with
    | b :: rest =>
      if b = Text.byte '-' then (true, rest)
      else if b = Text.byte '+' then (false, rest)
      else (false, t)
    | [] => (false, [])
  if rest = [Text.byte '0'] then .ok 0
  else if rest.isEmpty then .error (.invalid t)
  else
    let n ← sum t (rest.length + 1) 0 rest
    if negative then .ok (-(n : Int))
    else if n < most then .ok n
    else .error (.invalid t)

end Duration

end BlockEngine.Config
