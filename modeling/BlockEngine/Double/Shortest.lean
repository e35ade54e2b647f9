/-
  BlockEngine.Double.Shortest — doubles written with the fewest digits that read back.

  `shortest` finds, for a positive finite double, the decimal with the fewest significant digits
  among those that round to it, of two such the nearer, of two equally near the even one.
  `toText` writes it without an exponent.
-/

import BlockEngine.Double.Basic
import BlockEngine.Text.Basic

namespace BlockEngine.Double

def digitCount (n : Nat) : Nat := (Nat.toDigits 10 n).length

/-- The power of ten `k` with `10 ^ (k - 1) ≤ num / den < 10 ^ k`. -/
def decade (num den : Nat) : Int :=
  if den ≤ num then digitCount (num / den) else 1 - (digitCount ((den - 1) / num) : Int)

/-- The reals that round to one double, all over the denominator `den`: from `low` to `high`
    around `mid`, with the ends if `closed`. -/
structure Interval where
  low : Nat
  mid : Nat
  high : Nat
  den : Nat
  closed : Bool

/-- The interval of a positive finite double. Below a power of two the neighbour is at half the
    distance, but for the least normal exponent. Ends belong to even mantissas. -/
def interval (x : Double) : Interval :=
  let m := x.mantissa
  let q := x.exponent - 2
  let below := if x.fraction = 0 ∧ 1 < x.exponentField then 1 else 2
  let up := 2 ^ q.toNat
  { low := (4 * m - below) * up
    mid := 4 * m * up
    high := (4 * m + 2) * up
    den := 2 ^ (-q).toNat
    closed := m % 2 == 0 }

def Interval.holds (i : Interval) (n d : Nat) : Bool :=
  if i.closed then decide (i.low * d ≤ n * i.den) && decide (n * i.den ≤ i.high * d)
  else decide (i.low * d < n * i.den) && decide (n * i.den < i.high * d)

structure Decimal where
  digits : Nat
  exponent : Int

def gridPoint (c : Nat) (e : Int) : Nat × Nat := (c * 10 ^ e.toNat, 10 ^ (-e).toNat)

/-- The point of the grid of multiples of `10 ^ e` that lies in the interval and is nearest to its
    middle, if one does. -/
def Interval.gridHit? (i : Interval) (e : Int) : Option Decimal :=
  let n := i.mid * 10 ^ (-e).toNat
  let d := i.den * 10 ^ e.toNat
  let c := n / d
  let (lowNum, lowDen) := gridPoint c e
  let (highNum, highDen) := gridPoint (c + 1) e
  match i.holds lowNum lowDen, i.holds highNum highDen with
  | true, true => some ⟨roundDiv n d, e⟩
  | true, false => some ⟨c, e⟩
  | false, true => some ⟨c + 1, e⟩
  | false, false => none

def Interval.firstHit (i : Interval) : Nat → Int → Decimal
  | 0, e => ⟨i.mid * 10 ^ (-e).toNat / (i.den * 10 ^ e.toNat), e⟩
  | n + 1, e =>
    match i.gridHit? e with
    | some d => d
    | none => i.firstHit n (e - 1)

/-- The shortest decimal that rounds to a positive finite double. Seventeen digits always do. -/
def shortest (x : Double) : Decimal :=
  let i := x.interval
  i.firstHit 17 (decade i.mid i.den - 1)

def dropZeros (t : Text) : Text := (t.reverse.dropWhile (· == Text.byte '0')).reverse

/-- Positional notation: no exponent, no zeros at the end of a fraction, no bare point. -/
def Decimal.toText (d : Decimal) : Text :=
  let ds := Text.ofNat d.digits
  if 0 ≤ d.exponent then ds ++ List.replicate d.exponent.toNat (Text.byte '0')
  else
    let places := (-d.exponent).toNat
    let padded := List.replicate (places + 1 - ds.length) (Text.byte '0') ++ ds
    let whole := padded.take (padded.length - places)
    let part := dropZeros (padded.drop (padded.length - places))
    if part.isEmpty then whole else whole ++ [Text.byte '.'] ++ part

/-- A double in positional notation with the fewest digits that read back. -/
def toText (x : Double) : Text :=
  if x.isNaN then "NaN"
  else if x.isInfinite then if x.isNegative then "-Inf" else "+Inf"
  else
    let sign : Text := if x.isNegative then "-" else []
    if x.isZero then sign ++ "0" else sign ++ x.shortest.toText

end BlockEngine.Double
