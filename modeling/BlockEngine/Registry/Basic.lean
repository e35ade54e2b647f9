/-
  BlockEngine.Registry.Basic — the arena of counted block definitions.

  A registry keeps definitions in numbered records. A record holds a definition and counts its
  references; when the count drops to zero the record is freed, its generation moves on and its
  index waits on the free list, the last one freed first. A handle is an index with a
  generation: once its record is freed it is stale for good.

  Registered definitions form the palette, in order. The first terminator registered is the
  implicit one: it closes bodies that a program leaves open, and no editor offers it.
-/

import BlockEngine.Definition

namespace BlockEngine

/-- A definition within one registry. Blocks know their kind by it even after the record that
    held it is freed. -/
abbrev KindId := Nat

structure Holding where
  kind : KindId
  refs : Nat

structure Record where
  generation : UInt32
  holding : Option Holding

structure Registry where
  /-- Every definition there ever was. -/
  kinds : Array Definition := #[]
  records : Array Record := #[]
  free : List UInt32 := []
  palette : List Handle := []
  terminator : Handle := .zero

namespace Registry

def kind (r : Registry) (k : KindId) : Definition := r.kinds[k]?.getD { id := [] }

/-- What a handle's record holds, unless the handle is stale. -/
def holding? (r : Registry) (h : Handle) : Option Holding :=
  if h.isZero then none
  else
    match r.records[h.index.toNat]? with
    | some x => if x.generation = h.generation then x.holding else none
    | none => none

def kind? (r : Registry) (h : Handle) : Option KindId := (r.holding? h).map (·.kind)

def definition? (r : Registry) (h : Handle) : Option Definition := (r.kind? h).map r.kind

def refCount (r : Registry) (h : Handle) : Nat :=
  match r.holding? h with
  | some x => x.refs
  | none => 0

def size (r : Registry) : Nat := r.records.size - r.free.length

def totalRefs (r : Registry) : Nat :=
  (r.records.toList.map fun x => (x.holding.map (·.refs)).getD 0).foldr (· + ·) 0

/-! ## Effects on one record -/

/-- Puts a definition into a record: the one freed last, or a new one. It has one reference. -/
def alloc (d : Definition) (r : Registry) : Handle × Registry :=
  let held : Holding := { kind := r.kinds.size, refs := 1 }
  let kinds := r.kinds.push d
  match r.free with
  | i :: free =>
    let generation := (r.records[i.toNat]?.map (·.generation)).getD 0
    (⟨i, generation⟩,
      { r with
        kinds := kinds
        records := r.records.setIfInBounds i.toNat ⟨generation, some held⟩
        free := free })
  | [] =>
    (⟨r.records.size.toUInt32, 1⟩,
      { r with kinds := kinds, records := r.records.push ⟨1, some held⟩ })

def setRefs (h : Handle) (held : Holding) (refs : Nat) (r : Registry) : Registry :=
  let x : Record := ⟨h.generation, some { held with refs := refs }⟩
  { r with records := r.records.setIfInBounds h.index.toNat x }

def freeRecord (h : Handle) (r : Registry) : Registry :=
  { r with
    records := r.records.setIfInBounds h.index.toNat ⟨h.generation + 1, none⟩
    free := h.index :: r.free }

/-! ## References -/

/-- Adds a reference; the new count. -/
def retain (h : Handle) (r : Registry) : Except Error Nat × Registry :=
  match r.holding? h with
  | none => (.error (.stale h), r)
  | some x => (.ok (x.refs + 1), r.setRefs h x (x.refs + 1))

/-- Drops a reference of each handle in turn. A record that loses its last one is freed, and the
    references of its definition's children are dropped before the rest. The first stale handle
    ends it all. Each turn but the last drops one of all references, so one more than their number
    is enough fuel. -/
def unwind : Nat → List Handle → Registry → Option Error × Registry
  | _, [], r => (none, r)
  | 0, _ :: _, r => (none, r)
  | n + 1, h :: rest, r =>
    match r.holding? h with
    | none => (some (.stale h), r)
    | some x =>
      if 1 < x.refs then unwind n rest (r.setRefs h x (x.refs - 1))
      else unwind n ((r.kind x.kind).children ++ rest) (r.freeRecord h)

/-- Drops a reference; the new count. At zero the record is freed and with it the references that
    its definition holds. -/
def release (h : Handle) (r : Registry) : Except Error Nat × Registry :=
  match r.holding? h with
  | none => (.error (.stale h), r)
  | some x =>
    match unwind (r.totalRefs + 1) [h] r with
    | (none, r) => (.ok (x.refs - 1), r)
    | (some e, r) => (.error e, r)

/-! ## The palette -/

def register (d : Definition) (r : Registry) : Handle × Registry :=
  let implicit := d.type == .terminator && r.terminator.isZero
  let (h, r) := r.alloc (if implicit then { d with hidden := true } else d)
  (h,
    { r with
      palette := r.palette ++ [h]
      terminator := if implicit then h else r.terminator })

def unregister (h : Handle) (r : Registry) : Except Error Nat × Registry :=
  match r.holding? h with
  | none => (.error (.stale h), r)
  | some _ =>
    release h
      { r with
        palette := r.palette.erase h
        terminator := if h = r.terminator then .zero else r.terminator }

/-- The definition in the record at a palette entry's index, whatever its generation. A record
    that is not in use has none. -/
def atEntry (r : Registry) (h : Handle) : Except AccessError Definition :=
  match r.records[h.index.toNat]? with
  | some ⟨_, some x⟩ => .ok (r.kind x.kind)
  | _ => .error .absent

def lookup (r : Registry) (id : Text) : Except AccessError (Option Handle) :=
  find r.palette
where
  /-- The first of some entries with the id. -/
  find : List Handle → Except AccessError (Option Handle)
    | [] => .ok none
    | h :: rest => do
      let d ← r.atEntry h
      if d.id = id then .ok (some h) else find rest

def visible (r : Registry) : Except AccessError (List Handle) :=
  r.palette.filterM fun h => do
    let d ← r.atEntry h
    .ok !d.hidden

/-! ## Procedures -/

/-- The children of a definition, which for a procedure are its parameters in order. -/
def params (r : Registry) (h : Handle) : List Handle :=
  match r.definition? h with
  | some d => d.children
  | none => []

end Registry

end BlockEngine
