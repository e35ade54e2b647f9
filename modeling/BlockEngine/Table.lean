/-
  BlockEngine.Table — things by name.
-/

import BlockEngine.Text.Basic

namespace BlockEngine

/-- Things by name, each name once, in the order they were named first. -/
abbrev Table (α : Type) := List (Text × α)

namespace Table

variable {α : Type}

def get? (t : Table α) (name : Text) : Option α := (t.find? (·.1 == name)).map (·.2)

def set (name : Text) (a : α) : Table α → Table α
  | [] => [(name, a)]
  | (n, b) :: rest => if n = name then (n, a) :: rest else (n, b) :: set name a rest

def namesOf (p : α → Bool) (t : Table α) : List Text := (t.filter (p ·.2)).map (·.1)

end Table

def Text.least? : List Text → Option Text
  | [] => none
  | t :: rest =>
    match least? rest with
    | some u => some (if t.order u == .gt then u else t)
    | none => some t

end BlockEngine
