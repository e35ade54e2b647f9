/-
  BlockEngine.Double.Narrow — shorter binary floating-point formats.

  `narrow?` finds the bits of a double in a shorter format, if that holds it exactly; `widen`
  goes back.
-/

import BlockEngine.Double.Basic

namespace BlockEngine.Double

/-- A binary format: the bits of its fraction and of its exponent field, and the exponent of its
    least unit. -/
structure Format where
  fractionBits : Nat
  exponentBits : Nat
  unit : Int

def Format.half : Format := ⟨10, 5, -24⟩

def Format.single : Format := ⟨23, 8, -149⟩

namespace Format

def infinite (f : Format) : Nat := (2 ^ f.exponentBits - 1) * 2 ^ f.fractionBits

def sign (f : Format) : Nat := 2 ^ (f.fractionBits + f.exponentBits)

/-- The magnitude bits of a positive finite double `m * 2 ^ q`, if the format holds it. -/
def magnitude? (f : Format) (m : Nat) (q : Int) : Option Nat :=
  let k := max ((m.log2 : Int) + q - f.fractionBits) f.unit
  let shift := 2 ^ (k - q).toNat
  if m % shift = 0 then
    let bits := (k - f.unit).toNat * 2 ^ f.fractionBits + m * 2 ^ (q - k).toNat / shift
    if bits < f.infinite then some bits else none
  else none

end Format

/-- The bits of a double in a shorter format, if that holds it exactly. No NaN has any. -/
def narrow? (f : Format) (x : Double) : Option Nat :=
  let sign := if x.isNegative then f.sign else 0
  if x.isNaN then none
  else if x.isInfinite then some (sign + f.infinite)
  else if x.isZero then some sign
  else (f.magnitude? x.mantissa x.exponent).map (sign + ·)

def widen (f : Format) (bits : Nat) : Double :=
  let negative := decide (f.sign ≤ bits)
  let magnitude := bits % f.sign
  let field := magnitude / 2 ^ f.fractionBits
  let fraction := magnitude % 2 ^ f.fractionBits
  if f.infinite < magnitude then nan
  else if magnitude = f.infinite then infinity negative
  else if field = 0 then ofScaled negative fraction f.unit
  else ofScaled negative (2 ^ f.fractionBits + fraction) (f.unit + (field - 1 : Nat))

end BlockEngine.Double
