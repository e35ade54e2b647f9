/-
  BlockEngine.Registry.Copy — independent copies of definitions.

  A copy has copies of all embedded definitions, made before it and in order, and is linked to no
  chain. Embedding has no cycles in a registry whose definitions embed only handles handed out
  before, so the depth of the recursion is at most the number of records.
-/

import BlockEngine.Registry.Basic

namespace BlockEngine.Registry

/-- What copying one handle gives; `none` if the fuel ran out. -/
abbrev Copier := Handle → Registry → Option (Except Error Handle × Registry)

/-- Inputs with copies in place of their children. The first stale child ends it. -/
def copyInputs (copy : Copier) :
    List Input → Registry → Option (Except Error (List Input) × Registry)
  | [], r => some (.ok [], r)
  | i :: rest, r =>
    if i.child.isZero then
      match copyInputs copy rest r with
      | some (.ok rest, r) => some (.ok (i :: rest), r)
      | other => other
    else
      match copy i.child r with
      | some (.ok child, r) =>
        match copyInputs copy rest r with
        | some (.ok rest, r) => some (.ok ({ i with child := child } :: rest), r)
        | other => other
      | some (.error e, r) => some (.error e, r)
      | none => none

/-- A copy of the definition and of all below it, as far down as the fuel reaches. -/
def copyTree : Nat → Copier
  | 0, _, _ => none
  | n + 1, h, r =>
    match r.definition? h with
    | none => some (.error (.stale h), r)
    | some d =>
      match copyInputs (copyTree n) d.inputs r with
      | some (.ok inputs, r) =>
        let (h, r) := r.alloc { d with inputs := inputs, owner := none }
        some (.ok h, r)
      | some (.error e, r) => some (.error e, r)
      | none => none

/-- An independent copy of a definition. What was copied before a stale child is met stays. -/
def copyDefinition (h : Handle) (r : Registry) : Except Error Handle × Registry :=
  (copyTree (r.records.size + 1) h r).getD (.error (.stale h), r)

end BlockEngine.Registry
