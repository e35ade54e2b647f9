/-
  BlockEngine.Double.Basic — 64-bit binary floating-point numbers.

  A double is its 64 bits: a sign, an exponent field of 11 bits and a fraction of 52. A finite
  one is ± `mantissa` · 2 ^ `exponent`, both exact integers, so every operation below is integer
  arithmetic followed by one rounding (`ofRatio`, to the nearest, ties to even).
-/

-- `2 ^ n` is the power of the core library, also where another one is in scope.
attribute [instance (2000), default_instance 20000] instPowNat

namespace BlockEngine

structure Double where
  bits : UInt64
  deriving DecidableEq

namespace Double

def isNegative (x : Double) : Bool := decide (2 ^ 63 ≤ x.bits.toNat)

/-- All bits but the sign, as a number. Magnitudes of numbers are ordered as these are. -/
def magnitude (x : Double) : Nat := x.bits.toNat % 2 ^ 63

def exponentField (x : Double) : Nat := x.magnitude / 2 ^ 52

def fraction (x : Double) : Nat := x.magnitude % 2 ^ 52

def isNaN (x : Double) : Bool := x.exponentField == 2047 && x.fraction != 0

def isInfinite (x : Double) : Bool := x.exponentField == 2047 && x.fraction == 0

def isFinite (x : Double) : Bool := x.exponentField != 2047

def mantissa (x : Double) : Nat :=
  if x.exponentField = 0 then x.fraction else 2 ^ 52 + x.fraction

def exponent (x : Double) : Int := (max x.exponentField 1 : Nat) - 1075

def pack (negative : Bool) (magnitude : Nat) : Double :=
  ⟨((if negative then 2 ^ 63 else 0) + magnitude).toUInt64⟩

def zero : Double := pack false 0

def infiniteMagnitude : Nat := 2047 * 2 ^ 52

def infinity (negative : Bool) : Double := pack negative infiniteMagnitude

def nan : Double := pack false (infiniteMagnitude + 2 ^ 51)

def neg (x : Double) : Double := pack (!x.isNegative) x.magnitude

/-! ## Rounding -/

/-- `num / den` to the nearest whole number, a half to the even one. -/
def roundDiv (num den : Nat) : Nat :=
  let q := num / den
  let r := num % den
  if 2 * r < den then q
  else if den < 2 * r then q + 1
  else if q % 2 = 0 then q else q + 1

/-- `num / den` times `2 ^ -q`, as a fraction again. -/
def scaled (num den : Nat) (q : Int) : Nat × Nat :=
  if 0 ≤ q then (num, den * 2 ^ q.toNat) else (num * 2 ^ (-q).toNat, den)

/-- The exponent at which `num / den` has a mantissa of 53 bits, or the least there is. -/
def unitExponent (num den : Nat) : Int :=
  let q := max ((num.log2 : Int) - den.log2 - 53) (-1074)
  let (n, d) := scaled num den q
  if n / d < 2 ^ 53 then q else q + 1

/-- The double nearest to ± `num / den`, ties to the even mantissa. What is too large becomes an
    infinity. The exponent field is added, so a mantissa rounded up to 2 ^ 53 carries into it. -/
def ofRatio (negative : Bool) (num den : Nat) : Double :=
  if num = 0 then pack negative 0
  else
    let q := unitExponent num den
    let (n, d) := scaled num den q
    let m := (q + 1074).toNat * 2 ^ 52 + roundDiv n d
    if m < infiniteMagnitude then pack negative m else infinity negative

def ofScaled (negative : Bool) (m : Nat) (q : Int) : Double :=
  if 0 ≤ q then ofRatio negative (m * 2 ^ q.toNat) 1 else ofRatio negative m (2 ^ (-q).toNat)

/-! ## Arithmetic -/

/-- The signed mantissa at the exponent `q`, which is not above the number's own. -/
def signedAt (x : Double) (q : Int) : Int :=
  let m : Int := x.mantissa * 2 ^ (x.exponent - q).toNat
  if x.isNegative then -m else m

/-- The sum, rounded once. A zero sum is negative only if both terms are. -/
def add (x y : Double) : Double :=
  if x.isNaN || y.isNaN then nan
  else if x.isInfinite then
    if y.isInfinite && x.isNegative != y.isNegative then nan else x
  else if y.isInfinite then y
  else
    let q := min x.exponent y.exponent
    let s := x.signedAt q + y.signedAt q
    if s = 0 then pack (x.isNegative && y.isNegative) 0 else ofScaled (decide (s < 0)) s.natAbs q

def mul (x y : Double) : Double :=
  let negative := x.isNegative != y.isNegative
  if x.isNaN || y.isNaN then nan
  else if x.isInfinite || y.isInfinite then
    if x.magnitude = 0 || y.magnitude = 0 then nan else infinity negative
  else ofScaled negative (x.mantissa * y.mantissa) (x.exponent + y.exponent)

/-- Where a number that is no NaN stands in the order; both zeros stand at 0. -/
def rank (x : Double) : Int := if x.isNegative then -x.magnitude else x.magnitude

/-- Numerically less; never so with a NaN. -/
def lt (x y : Double) : Bool := !x.isNaN && !y.isNaN && decide (x.rank < y.rank)

/-- Numerically equal; never so with a NaN. -/
def eq (x y : Double) : Bool := !x.isNaN && !y.isNaN && decide (x.rank = y.rank)

def isZero (x : Double) : Bool := x.magnitude == 0

/-! ## Whole numbers -/

def ofInt (n : Int) : Double := ofRatio (decide (n < 0)) n.natAbs 1

def truncate? (x : Double) : Option Int :=
  if x.isFinite then
    let m := if 0 ≤ x.exponent then x.mantissa * 2 ^ x.exponent.toNat
      else x.mantissa / 2 ^ (-x.exponent).toNat
    some (if x.isNegative then -(m : Int) else m)
  else none

def toInt64? (x : Double) : Option Int64 :=
  match x.truncate? with
  | some n => if -2 ^ 63 ≤ n ∧ n < 2 ^ 63 then some (Int64.ofInt n) else none
  | none => none

/-- The number without its fraction; what does not fit becomes the least integer. -/
def toInt64 (x : Double) : Int64 := x.toInt64?.getD Int64.minValue

end Double

end BlockEngine
