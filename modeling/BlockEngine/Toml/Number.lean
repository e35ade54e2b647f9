/-
  BlockEngine.Toml.Number — integers and floats.

  Underscores may stand between digits, and a decimal number starts with no zero that could be
  left out. Integers fit 64 bits, and floats are not larger than every double.
-/

import BlockEngine.Double.Numeral
import BlockEngine.Toml.Basic
import BlockEngine.Toml.Moment

namespace BlockEngine.Toml.Number

def isDigit (b : UInt8) : Bool := (Text.digit? b).isSome

def underscore : UInt8 := Text.byte '_'

def isSign (b : UInt8) : Bool := b == Text.byte '+' || b == Text.byte '-'

/-- Every underscore follows a digit, and the last byte is one. -/
def separated (t : Text) : Bool := go false t
where
  /-- `separated` after a digit or after something else. -/
  go (digit : Bool) : Text → Bool
    | [] => digit
    | b :: rest =>
      if b = underscore then digit && go false rest
      else go (Text.hexDigit? b).isSome rest

/-- A zero that could be left out starts the digits, after a sign or not. -/
def hasLeadingZero (t : Text) : Bool :=
  match t with
  | a :: b :: rest =>
    a == Text.byte '0' || (isSign a && b == Text.byte '0' && !rest.isEmpty)
  | _ => false

def natural (base : Nat) (t : Text) : Nat :=
  (t.filter (· != underscore)).foldl (fun n b => n * base + (Text.hexDigit? b).getD 0) 0

def bounded (n : Int) : Option Scalar :=
  if -2 ^ 63 ≤ n ∧ n < 2 ^ 63 then some (.integer n) else none

def integer? (t : Text) : Option Scalar :=
  if !separated t || hasLeadingZero t then none
  else
    let (negative, digits) := Numeral.sign t
    let n := natural 10 digits
    bounded (if negative then -(n : Int) else n)

/-- The parts of a float between its point and its exponent marks, empty ones left out. -/
def floatParts (t : Text) : List Text := (go t).filter (!·.isEmpty)
where
  /-- The parts, empty ones too. -/
  go : Text → List Text
    | [] => [[]]
    | b :: rest =>
      if b = Text.byte '.' ∨ b = Text.byte 'e' ∨ b = Text.byte 'E' then [] :: go rest
      else
        match go rest with
        | [] => [[b]]
        | p :: ps => (b :: p) :: ps

/-- A digit follows every point. -/
def pointsLead : Text → Bool
  | [] => true
  | b :: rest =>
    (b != Text.byte '.' || (rest.head?.map isDigit).getD false) && pointsLead rest

def float? (t : Text) : Option Scalar :=
  let parts := floatParts t
  if !parts.all separated || (parts.head?.map hasLeadingZero).getD false || !pointsLead t then none
  else do
    let numeral ← Numeral.numeral? (t.filter (· != underscore))
    let x ← numeral.toDouble?
    some (.float x)

def moment? (t : Text) : Option Scalar :=
  let t := (t.reverse.dropWhile isBlank).reverse
  if Moment.isValid t then some (.moment t) else none

/-- An integer in another base after its mark: `0x1F`. -/
def based (base : Nat) : Reader Scalar := fun t =>
  let inBase (b : UInt8) : Bool := ((Text.hexDigit? b).map (decide <| · < base)).getD false
  let digits := t.takeWhile fun b => inBase b || b == underscore
  if (digits.head?.map inBase).getD false && separated digits then
    (bounded (natural base digits)).map (·, t.drop digits.length)
  else none

def isMoment (b : UInt8) : Bool :=
  isDigit b || ("-:Tt .Zz+" : Text).contains b

def isFloat (b : UInt8) : Bool := isDigit b || ("_.-+eE" : Text).contains b

def startsFraction (t : Text) : Bool :=
  (t.head?.map fun b => ("." : Text).contains b || ("eE" : Text).contains b).getD false

def decimal (sign : Text) : Reader Scalar := fun t =>
  let digits := t.takeWhile fun b => isDigit b || b == underscore
  let rest := t.drop digits.length
  if startsFraction rest then
    let more := rest.takeWhile isFloat
    (float? (sign ++ digits ++ more)).map (·, rest.drop more.length)
  else (integer? (sign ++ digits)).map (·, rest)

def word (negative : Bool) (t : Text) : Option (Scalar × Text) :=
  if let some rest := Text.after? ("inf" : Text) t then some (.float (.infinity negative), rest)
  else if let some rest := Text.after? ("nan" : Text) t then
    some (.float (if negative then Double.nan.neg else .nan), rest)
  else none

/-- A number after its sign. Only decimal ones have any. -/
def signed (sign : UInt8) (t : Text) : Option (Scalar × Text) :=
  match word (sign == Text.byte '-') t with
  | some r => some r
  | none => if (t.head?.map isDigit).getD false then decimal [sign] t else none

def unsigned (t : Text) : Option (Scalar × Text) :=
  match t with
  | 0x30 :: 0x62 :: rest => based 2 rest
  | 0x30 :: 0x6F :: rest => based 8 rest
  | 0x30 :: 0x78 :: rest => based 16 rest
  | _ =>
    match (t.dropWhile isDigit).head? with
    | some b =>
      if b = Text.byte '-' ∨ b = Text.byte ':' then
        let whole := t.takeWhile isMoment
        (moment? whole).map (·, t.drop whole.length)
      else decimal [] t
    | none => decimal [] t

end BlockEngine.Toml.Number
