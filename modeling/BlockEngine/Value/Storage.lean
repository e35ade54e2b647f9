/-
  BlockEngine.Value.Storage — shared list elements, copies and frees.

  A value is passed on by handing over the same tree, so two lists with one cell are two views of
  the same elements. Freeing an element empties its place in the cell for every view. Storage
  keeps the emptied places; `view` shows a value as it is now. A copy gets cells of its own.
-/

import BlockEngine.Value.Basic

namespace BlockEngine

/-- The cells handed out so far and the places in them that have been emptied. -/
structure Storage where
  next : Cell := 0
  emptied : List (Cell × Nat) := []

namespace Storage

/-- The place `i` of cell `c` no longer holds its element. -/
def isEmptied (s : Storage) (c : Cell) (i : Nat) : Bool := s.emptied.contains (c, i)

mutual

/-- The value with Nothing where an element was freed. -/
def view (s : Storage) : Value → Value
  | .scalar o x => .scalar o x
  | .list o c items => .list o c (viewItems s c 0 items)

def viewItems (s : Storage) (c : Cell) (i : Nat) : List Value → List Value
  | [] => []
  | v :: vs => (if s.isEmptied c i then .nothing else view s v) :: viewItems s c (i + 1) vs

end

mutual

/-- Frees a value: a managed list frees its elements first. A static value is left alone. What
    held the value holds Nothing afterwards, which is for the holder to see to. -/
def free (v : Value) (s : Storage) : Storage :=
  match v with
  | .list .managed c items => freeItems c 0 items s
  | _ => s

/-- Frees the elements from place `i` of cell `c` on and empties their places. -/
def freeItems (c : Cell) (i : Nat) (vs : List Value) (s : Storage) : Storage :=
  match vs with
  | [] => s
  | v :: vs =>
    if v.own = .static ∨ s.isEmptied c i then freeItems c (i + 1) vs s
    else
      let s := free v s
      freeItems c (i + 1) vs { s with emptied := (c, i) :: s.emptied }

end

def release (v : Value) (s : Storage) : Storage := if v.own = .managed then s.free v else s

def releaseAll (vs : List Value) (s : Storage) : Storage := vs.foldl (fun s v => s.release v) s

mutual

def place (v : Value) (s : Storage) : Value × Storage :=
  match v with
  | .scalar o x => (.scalar o x, s)
  | .list o _ items =>
    let c := s.next
    let (items, s) := placeAll items { s with next := c + 1 }
    (.list o c items, s)

def placeAll (vs : List Value) (s : Storage) : List Value × Storage :=
  match vs with
  | [] => ([], s)
  | v :: vs =>
    let (v, s) := place v s
    let (vs, s) := placeAll vs s
    (v :: vs, s)

end

/-- A list in a fresh cell around elements that keep theirs. -/
def newList (own : Ownership) (items : List Value) (s : Storage) : Value × Storage :=
  (.list own s.next items, { s with next := s.next + 1 })

end Storage

mutual

/-- The tags of a copy: lists are the engine's, scalars nobody's. -/
def Value.retagged : Value → Value
  | .scalar _ x => .scalar .static x
  | .list _ c items => .list .managed c (retaggedAll items)

def Value.retaggedAll : List Value → List Value
  | [] => []
  | v :: vs => v.retagged :: retaggedAll vs

end

/-- A duplicate of the value as it is now that shares no element with it. -/
def Storage.copy (v : Value) (s : Storage) : Value × Storage := s.place (s.view v).retagged

def Storage.copyAll (vs : List Value) (s : Storage) : List Value × Storage :=
  match vs with
  | [] => ([], s)
  | v :: vs =>
    let (v, s) := s.copy v
    let (vs, s) := s.copyAll vs
    (v :: vs, s)

/-- What the holder of a freed value holds: Nothing, unless the value was nobody's to free. -/
def Value.freed (v : Value) : Value := if v.own = .static then v else .nothing

end BlockEngine
