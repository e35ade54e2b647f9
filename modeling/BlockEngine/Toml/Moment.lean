/-
  BlockEngine.Toml.Moment — dates and times of day.

  A moment is a date, a time of day, or a date and a time, the latter with or without an offset
  from universal time. Seconds may be left out; a fraction of one may follow them. Between date
  and time stands a `T` or a blank, and letters may be small.
-/

import BlockEngine.Toml.Quoted

namespace BlockEngine.Toml.Moment

/-- Letters capital, and a blank as the letter between date and time. -/
def canonical (t : Text) : Text :=
  t.map fun b =>
    if b = Text.byte 't' ∨ b = Text.byte ' ' then Text.byte 'T'
    else if b = Text.byte 'z' then Text.byte 'Z'
    else b

def digits (n : Nat) : Reader Nat := fun t =>
  let front := t.take n
  if front.length < n then none
  else do
    let value ← front.foldlM (fun v b => (Text.digit? b).map (v * 10 + ·)) 0
    some (value, t.drop n)

def mark (c : Char) : Reader Unit := fun t => (Text.after? [Text.byte c] t).map ((), ·)

def isLeap (year : Nat) : Bool := year % 4 == 0 && (year % 100 != 0 || year % 400 == 0)

def daysIn (year month : Nat) : Nat :=
  if month = 2 then if isLeap year then 29 else 28
  else if month = 4 ∨ month = 6 ∨ month = 9 ∨ month = 11 then 30
  else 31

/-- `2006-01-02`, a day that there is. -/
def date : Reader Unit := fun t => do
  let (year, t) ← digits 4 t
  let (_, t) ← mark '-' t
  let (month, t) ← digits 2 t
  let (_, t) ← mark '-' t
  let (day, t) ← digits 2 t
  if 1 ≤ month ∧ month ≤ 12 ∧ 1 ≤ day ∧ day ≤ daysIn year month then some ((), t) else none

def fraction (t : Text) : Text :=
  match t with
  | b :: rest =>
    let n := (rest.takeWhile fun b => (Text.digit? b).isSome).length
    if b = Text.byte '.' ∧ 0 < n then rest.drop n else t
  | [] => []

def seconds : Reader Unit := fun t =>
  match mark ':' t with
  | none => some ((), t)
  | some (_, t) => do
    let (second, t) ← digits 2 t
    if second < 60 then some ((), fraction t) else none

/-- `15:04` or `15:04:05`. -/
def time : Reader Unit := fun t => do
  let (hour, t) ← digits 2 t
  let (_, t) ← mark ':' t
  let (minute, t) ← digits 2 t
  if hour < 24 ∧ minute < 60 then seconds t else none

def offset : Reader Unit := fun t =>
  match t with
  | [] => some ((), [])
  | b :: rest =>
    if b = Text.byte 'Z' then some ((), rest)
    else if b = Text.byte '+' ∨ b = Text.byte '-' then do
      let (hour, t) ← digits 2 rest
      let (_, t) ← mark ':' t
      let (minute, t) ← digits 2 t
      if hour ≤ 24 ∧ minute ≤ 60 then some ((), t) else none
    else none

def dated : Reader Unit := fun t => do
  let (_, t) ← date t
  match mark 'T' t with
  | none => some ((), t)
  | some (_, t) => do
    let (_, t) ← time t
    offset t

def isValid (t : Text) : Bool :=
  let t := canonical t
  let whole (r : Option (Unit × Text)) : Bool := (r.map fun x => x.2.isEmpty).getD false
  whole (dated t) || whole (time t)

end BlockEngine.Toml.Moment
