/-
  BlockEngine.Wire.Record — values as records, for an editor in another process.

  A record has a kind number and a field for each sort of content. Its fields have numbers, and all
  but the kind may be left out: as an item it is a map from field numbers, without fields that are
  zero or empty. Values that exist only inside a run are not encodable.
-/

import BlockEngine.Value.Coercion
import BlockEngine.Wire.Item

namespace BlockEngine.Wire

inductive Record where
  | mk (kind : UInt8) (int : Int64) (double : Double) (text : Text) (list : List Record)

namespace Record

def blank : Record := .mk 0 0 .zero [] []

/-! ## Items -/

/-- A field with its number, unless it is left out. -/
def field (number : Nat) (omitted : Bool) (x : Item) : List Item :=
  if omitted then [] else [.unsigned number, x]

mutual

def toItem : Record → Item
  | .mk kind int double text list =>
    .map
      (field 1 false (.unsigned kind.toNat) ++ field 2 (int == 0) (.ofInt int.toInt) ++
        field 3 double.isZero (.float double) ++ field 4 text.isEmpty (.text [text]) ++
        field 5 list.isEmpty (.array (toItems list)))

def toItems : List Record → List Item
  | [] => []
  | r :: rs => r.toItem :: toItems rs

end

/-! ## Values -/

mutual

/-- The record of a value, or the name of a kind that has none. -/
def ofValue : Value → Except Text Record
  | .scalar _ s =>
    match s with
    | .nothing => .ok blank
    | .int n => .ok (.mk 1 n .zero [] [])
    | .double x => .ok (.mk 2 0 x [] [])
    | .str t => .ok (.mk 3 0 .zero t [])
    | .bool b => .ok (.mk 4 (if b then 1 else 0) .zero [] [])
    | other => .error other.kind.name
  | .list _ _ items => do
    let rs ← ofValues items
    .ok (.mk 5 0 .zero [] rs)

def ofValues : List Value → Except Text (List Record)
  | [] => .ok []
  | v :: vs => do
    let r ← ofValue v
    let rs ← ofValues vs
    .ok (r :: rs)

end

mutual

/-- The value of a record, or its kind number in words if no value has it. Lists belong to the
    caller. -/
def toValue : Record → Except Text Value
  | .mk kind int double text list =>
    match Kind.ofCode? kind.toNat with
    | some .nothing => .ok .nothing
    | some .int => .ok (.ofInt int)
    | some .bool => .ok (.ofBool (int != 0))
    | some .double => .ok (.ofDouble double)
    | some .str => .ok (.ofText text)
    | some .list => do
      let vs ← toValues list
      .ok (.list .unmanaged 0 vs)
    | _ => .error ("kind " ++ Text.ofNat kind.toNat)

def toValues : List Record → Except Text (List Value)
  | [] => .ok []
  | r :: rs => do
    let v ← r.toValue
    let vs ← toValues rs
    .ok (v :: vs)

end

end Record

end BlockEngine.Wire
