/-
  BlockEngine.Toml.Statement — reading the statements of a document.

  Each statement stands on a line of its own, which a comment may end. Arrays and inline tables
  may span lines, may hold comments and may have a comma after their last item.
-/

import BlockEngine.Text.Utf8
import BlockEngine.Toml.Number

namespace BlockEngine.Toml

namespace Statement

def hash : UInt8 := Text.byte '#'

def skipBlanks (t : Text) : Text := t.dropWhile isBlank

def skipSpace : (inComment : Bool) → Text → Text
  | _, [] => []
  | true, b :: rest => skipSpace (!isBreak b) rest
  | false, b :: rest =>
    if b = hash then skipSpace true rest
    else if isBlank b || isBreak b then skipSpace false rest
    else b :: rest

def after (c : Char) (t : Text) : Option Text := Text.after? [Text.byte c] t

def keyPart : Reader Text
  | [] => none
  | b :: rest =>
    if b = Quoted.double ∨ b = Quoted.single then Quoted.line (b :: rest)
    else
      let bare := (b :: rest).takeWhile Key.isBare
      if bare.isEmpty then none else some (bare, (b :: rest).drop bare.length)

/-- A key of parts with points between them, and the blanks around. Each part takes a byte at
    least, so their number is enough fuel. -/
def keyParts : Nat → Reader Key
  | 0, _ => none
  | fuel + 1, t => do
    let (part, t) ← keyPart (skipBlanks t)
    let t := skipBlanks t
    match after '.' t with
    | none => some ([part], t)
    | some t =>
      let (parts, t) ← keyParts fuel t
      some (part :: parts, t)

def key : Reader Key := fun t => keyParts (t.length + 1) t

def scalar : Reader Expr
  | [] => none
  | b :: rest => (read b rest).map fun r => (.scalar r.1, r.2)
where
  /-- `scalar` by its first byte. -/
  read (b : UInt8) (rest : Text) : Option (Scalar × Text) :=
    if b = Quoted.double ∨ b = Quoted.single then
      (Quoted.any (b :: rest)).map fun r => (.text r.1, r.2)
    else if Number.isDigit b then Number.unsigned (b :: rest)
    else if Number.isSign b then Number.signed b rest
    else if let some t := Text.after? ("true" : Text) (b :: rest) then some (.boolean true, t)
    else if let some t := Text.after? ("false" : Text) (b :: rest) then some (.boolean false, t)
    else Number.word false (b :: rest)

mutual

/-- A value. Every step of reading one takes a byte at least or ends it, so that twice their
    number is enough fuel. -/
def value : Nat → Reader Expr
  | 0, _ => none
  | fuel + 1, t =>
    let t := skipBlanks t
    if let some t := after '[' t then
      (items fuel t).map fun r => (.array r.1, r.2)
    else if let some t := after '{' t then
      (pairs fuel t).map fun r => (.inline r.1, r.2)
    else scalar t

def items : Nat → Reader (List Expr)
  | 0, _ => none
  | fuel + 1, t =>
    let t := skipSpace false t
    if let some t := after ']' t then some ([], t)
    else do
      let (x, t) ← value fuel t
      let t := skipSpace false t
      if let some t := after ',' t then
        (items fuel t).map fun r => (x :: r.1, r.2)
      else (after ']' t).map ([x], ·)

def pairs : Nat → Reader (List (Key × Expr))
  | 0, _ => none
  | fuel + 1, t =>
    let t := skipSpace false t
    if let some t := after '}' t then some ([], t)
    else do
      let (k, t) ← key t
      let t ← after '=' t
      let (x, t) ← value fuel t
      let t := skipSpace false t
      if let some t := after ',' t then
        (pairs fuel t).map fun r => ((k, x) :: r.1, r.2)
      else (after '}' t).map ([(k, x)], ·)

end

def read : Reader Statement := fun t =>
  if let some t := Text.after? ("[[" : Text) t then do
    let (k, t) ← key t
    let t ← Text.after? ("]]" : Text) t
    some (.nextTable k, t)
  else if let some t := after '[' t then do
    let (k, t) ← key t
    let t ← after ']' t
    some (.table k, t)
  else do
    let (k, t) ← key t
    let t ← after '=' t
    let (x, t) ← value (2 * t.length + 2) t
    some (.pair k x, t)

def endsLine (t : Text) : Bool :=
  match skipBlanks t with
  | [] => true
  | b :: _ => isBreak b || b == hash

/-- All statements. Each takes a byte at least, so their number is enough fuel. -/
def readAll : Nat → Text → Option (List Statement)
  | 0, _ => none
  | fuel + 1, t =>
    match skipSpace false t with
    | [] => some []
    | b :: rest => do
      let (s, t) ← read (b :: rest)
      if endsLine t then do
        let ss ← readAll fuel t
        some (s :: ss)
      else none

end Statement

/-- The text without a byte order mark, of either width, at its front. -/
def withoutMark (t : Text) : Text :=
  match t with
  | 0xFF :: 0xFE :: rest => rest
  | 0xFE :: 0xFF :: rest => rest
  | 0xEF :: 0xBB :: 0xBF :: rest => rest
  | _ => t

/-- No control characters but tabs and line breaks, of which each ends in a line feed. -/
def hasOnlyText : Text → Bool
  | [] => true
  | b :: rest =>
    (if b = 0x0D then rest.head? == some 0x0A
      else b == 0x09 || b == 0x0A || (0x20 ≤ b && b != 0x7F)) && hasOnlyText rest

def statements (t : Text) : Option (List Statement) :=
  let t := withoutMark t
  if Text.Utf8.isValid t && hasOnlyText t then Statement.readAll (t.length + 1) t else none

end BlockEngine.Toml
