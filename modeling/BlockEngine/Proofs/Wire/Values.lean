/-
  BlockEngine.Proofs.Wire.Values — the records of values.

  A value has a record unless a control, a chain or the omitted value lies in it
  (`ofValue_okIff`). The sizes of the record's item are those of the value: two levels for each
  list that holds something, the record's map and the array of its elements (`height_record`). The
  record that is read back stands for the value as its reader gets it (`toValue_record`).
-/

import BlockEngine.Proofs.Wire.Documented

namespace BlockEngine

/-! ## What lies in a value -/

inductive Value.Within (u : Value) : Value → Prop where
  | self : Within u u
  | element {own : Ownership} {cell : Cell} {items : List Value} {v : Value} (hmem : v ∈ items) (h : Within u v) :
    Within u (.list own cell items)

def Value.Everywhere (P : Value → Prop) (v : Value) : Prop := ∀ u : Value, u.Within v → P u

/-- A scalar as it is read back: no zero is negative and no NaN has a payload. -/
def Scalar.received : Scalar → Scalar
  | .double x => .double (if x.isZero then .zero else Wire.canonical x)
  | s => s

namespace Value

variable {P : Value → Prop}

theorem everywhere_scalar (o : Ownership) (s : Scalar) : (scalar o s).Everywhere P ↔ P (.scalar o s) := by
  constructor
  · intro h
    exact h _ .self
  · intro h u hu
    cases hu
    exact h

theorem everywhere_list (o : Ownership) (cell : Cell) (items : List Value) :
    (list o cell items).Everywhere P ↔ P (.list o cell items) ∧ ∀ v ∈ items, v.Everywhere P := by
  constructor
  · intro h
    exact ⟨h _ .self, fun v hv u hu => h u (.element hv hu)⟩
  · rintro ⟨hself, hitems⟩ u hu
    cases hu with
    | self => exact hself
    | element hv hu => exact hitems _ hv u hu

/-! ## What a value must be like to be sent and received -/

/-- Values that exist only inside a run. -/
def Hidden (v : Value) : Prop := v.kind = .control ∨ v.kind = .chain ∨ v.kind = .omitted

def Legible : Value → Prop
  | .scalar _ (.str t) => Text.Utf8.isValid t = true
  | _ => True

def Short (n : Nat) : Value → Prop
  | .list _ _ items => items.length ≤ n
  | _ => True

/-- The length of a text or a list fits 63 bits, as every length does. -/
def Sized : Value → Prop
  | .scalar _ (.str t) => t.length < 2 ^ 63
  | .list _ _ items => items.length < 2 ^ 63
  | _ => True

mutual

/-- How deep a value is nested when it is written: each list that holds something adds two levels. -/
def levels : Value → Nat
  | .scalar _ _ => 1
  | .list _ _ items => if items.isEmpty then 1 else 2 + levelsAll items

def levelsAll : List Value → Nat
  | [] => 0
  | v :: vs => max v.levels (levelsAll vs)

end

theorem levelsAll_le {n : Nat} (vs : List Value) : levelsAll vs ≤ n ↔ ∀ v ∈ vs, v.levels ≤ n := by
  induction vs with
  | nil => simp [levelsAll]
  | cons v vs ih => simp [levelsAll, ih]

mutual

/-- The depth of a value is odd. -/
theorem levels_odd : ∀ v : Value, v.levels % 2 = 1
  | .scalar _ _ => rfl
  | .list _ _ items => by
    cases hitems : items.isEmpty with
    | true => simp [levels, hitems]
    | false =>
      have h := levelsAll_odd items (by simpa using hitems)
      simp only [levels, hitems, Bool.false_eq_true, if_false]
      omega

theorem levelsAll_odd : ∀ vs : List Value, vs ≠ [] → levelsAll vs % 2 = 1
  | [], h => (h rfl).elim
  | v :: vs, _ => by
    have hfirst := levels_odd v
    rw [levelsAll]
    by_cases hvs : vs = []
    · rw [hvs]
      simpa [levelsAll] using hfirst
    · have hothers := levelsAll_odd vs hvs
      omega

end

/-! ## What the reader gets -/

mutual

/-- The value as its reader gets it: scalars are static, and lists belong to the reader. -/
def received : Value → Value
  | .scalar _ s => .scalar .static s.received
  | .list _ _ items => .list .unmanaged 0 (receivedAll items)

def receivedAll : List Value → List Value
  | [] => []
  | v :: vs => v.received :: receivedAll vs

end

theorem receivedAll_eq (vs : List Value) : receivedAll vs = vs.map received := by
  induction vs with
  | nil => rfl
  | cons v vs ih => simp [receivedAll, ih]

end Value

namespace Wire

/-! ## Records of values -/

def scalarRecord : Scalar → Record
  | .int n => .mk 1 n .zero [] []
  | .double x => .mk 2 0 x [] []
  | .str t => .mk 3 0 .zero t []
  | .bool b => .mk 4 (if b then 1 else 0) .zero [] []
  | _ => .blank

mutual

def record : Value → Record
  | .scalar _ s => scalarRecord s
  | .list _ _ items => .mk 5 0 .zero [] (records items)

def records : List Value → List Record
  | [] => []
  | v :: vs => record v :: records vs

end

theorem length_records (vs : List Value) : (records vs).length = vs.length := by
  induction vs with
  | nil => rfl
  | cons v vs ih => simp [records, ih]

theorem records_eq (vs : List Value) : records vs = vs.map record := by
  induction vs with
  | nil => rfl
  | cons v vs ih => simp [records, ih]

mutual

/-- A value has a record unless something in it exists only inside a run. -/
theorem ofValue_okIff : ∀ v : Value, OkIff (Record.ofValue v) (v.Everywhere fun u => ¬ u.Hidden) (record v)
  | .scalar o s => by
    cases s with
    | control m => exact .of_error (e := Kind.name .control) rfl fun h => h _ .self (.inl rfl)
    | chain c => exact .of_error (e := Kind.name .chain) rfl fun h => h _ .self (.inr (.inl rfl))
    | omitted => exact .of_error (e := Kind.name .omitted) rfl fun h => h _ .self (.inr (.inr rfl))
    | _ => exact .of_ok rfl ((Value.everywhere_scalar _ _).mpr (by simp [Value.Hidden, Value.kind, Scalar.kind]))
  | .list o cell items => by
    have h := (ofValues_okIff items).map fun rs => Record.mk 5 0 .zero [] rs
    refine h.congr (by rw [Record.ofValue]) ?_
    rw [Value.everywhere_list]
    simp [Value.Hidden, Value.kind]

theorem ofValues_okIff : ∀ vs : List Value,
    OkIff (Record.ofValues vs) (∀ v ∈ vs, v.Everywhere fun u => ¬ u.Hidden) (records vs)
  | [] => .of_ok rfl (by simp)
  | v :: vs => by
    have h : OkIff (Record.ofValue v >>= fun r => Record.ofValues vs >>= fun rs => .ok (r :: rs))
        ((v.Everywhere fun u => ¬ u.Hidden) ∧ ∀ w ∈ vs, w.Everywhere fun u => ¬ u.Hidden) (record v :: records vs) :=
      (ofValue_okIff v).bind fun _ => (ofValues_okIff vs).map fun rs => record v :: rs
    exact h.congr (by rw [Record.ofValues]) List.forall_mem_cons

end

mutual

/-- A record's texts are UTF-8 if its value's are. -/
theorem record_utf8 : ∀ v : Value, (record v).Utf8 ↔ v.Everywhere Value.Legible
  | .scalar o s => by
    rw [Value.everywhere_scalar]
    cases s <;> simp [record, scalarRecord, Record.blank, Record.Utf8, Record.Utf8List, Value.Legible, Text.Utf8.isValid,
      Text.Utf8.decode]
  | .list o cell items => by
    rw [Value.everywhere_list, record, Record.Utf8, records_utf8 items]
    simp [Value.Legible, Text.Utf8.isValid, Text.Utf8.decode]

theorem records_utf8 : ∀ vs : List Value, Record.Utf8List (records vs) ↔ ∀ v ∈ vs, v.Everywhere Value.Legible
  | [] => by simp [records, Record.Utf8List]
  | v :: vs => by rw [records, Record.Utf8List, record_utf8 v, records_utf8 vs, List.forall_mem_cons]

end

mutual

/-- A record's item holds no more than is read if its value's lists do. -/
theorem record_small : ∀ v : Value, (record v).toItem.Small ↔ v.Everywhere (Value.Short maxElements)
  | .scalar o s => by
    rw [Value.everywhere_scalar]
    cases s <;> simp [record, scalarRecord, Record.blank, Record.toItem_small, Record.toItems, SmallAll, Value.Short]
  | .list o cell items => by
    rw [Value.everywhere_list, record, Record.toItem_small, records_small items, length_records]
    exact Iff.rfl

theorem records_small : ∀ vs : List Value,
    SmallAll (Record.toItems (records vs)) ↔ ∀ v ∈ vs, v.Everywhere (Value.Short maxElements)
  | [] => by simp [records, Record.toItems, SmallAll]
  | v :: vs => by rw [records, Record.toItems, SmallAll, record_small v, records_small vs, List.forall_mem_cons]

end

mutual

/-- A record's item is nested as deep as its value. -/
theorem record_height : ∀ v : Value, (record v).toItem.height = v.levels
  | .scalar o s => by
    cases s <;> simp [record, scalarRecord, Record.blank, Record.toItem_height, Value.levels]
  | .list o cell items => by
    rw [record, Record.toItem_height, records_height items, Value.levels]
    cases items with
    | nil => rfl
    | cons v vs =>
      simp only [records, List.isEmpty_cons, Bool.false_eq_true, if_false]
      omega

theorem records_height : ∀ vs : List Value, heightAll (Record.toItems (records vs)) = Value.levelsAll vs
  | [] => rfl
  | v :: vs => by rw [records, Record.toItems, heightAll, record_height v, records_height vs, Value.levelsAll]

end

mutual

theorem record_plain : ∀ v : Value, v.Everywhere Value.Sized → (record v).toItem.Plain
  | .scalar o s, h => by
    have hs := (Value.everywhere_scalar o s).mp h
    cases s with
    | str t => exact Record.toItem_plain _ _ _ _ _ hs (by decide) trivial
    | _ => exact Record.toItem_plain _ _ _ _ _ (by decide) (by decide) trivial
  | .list o cell items, h => by
    obtain ⟨hself, hitems⟩ := (Value.everywhere_list o cell items).mp h
    exact Record.toItem_plain _ _ _ _ _ (by decide) (by rw [length_records]; exact hself) (records_plain items hitems)

theorem records_plain : ∀ vs : List Value, (∀ v ∈ vs, v.Everywhere Value.Sized) → PlainAll (Record.toItems (records vs))
  | [], _ => trivial
  | v :: vs, h => ⟨record_plain v (h v List.mem_cons_self), records_plain vs fun w hw => h w (List.mem_cons_of_mem v hw)⟩

end

mutual

/-- The record that is read back stands for the value that its reader gets. -/
theorem toValue_record : ∀ v : Value, (v.Everywhere fun u => ¬ u.Hidden) → (record v).settled.toValue = .ok v.received
  | .scalar o s, h => by
    have hs := h _ .self
    cases s with
    | nothing => rfl
    | int n => rfl
    | double x => rfl
    | str t => rfl
    | bool b => cases b <;> rfl
    | control m => exact (hs (.inl rfl)).elim
    | chain c => exact (hs (.inr (.inl rfl))).elim
    | omitted => exact (hs (.inr (.inr rfl))).elim
  | .list o cell items, h => by
    have hitems := toValues_records items ((Value.everywhere_list o cell items).mp h).2
    rw [record, Record.settled, Record.toValue]
    show (Record.toValues (Record.settledList (records items)) >>= fun vs => .ok (Value.list .unmanaged 0 vs)) = _
    rw [hitems]
    rfl

theorem toValues_records : ∀ vs : List Value, (∀ v ∈ vs, v.Everywhere fun u => ¬ u.Hidden) →
    Record.toValues (Record.settledList (records vs)) = .ok (Value.receivedAll vs)
  | [], _ => rfl
  | v :: vs, h => by
    have hfirst := toValue_record v (h v List.mem_cons_self)
    have hothers := toValues_records vs fun w hw => h w (List.mem_cons_of_mem v hw)
    rw [records, Record.settledList, Record.toValues, hfirst, hothers]
    rfl

end

end Wire

end BlockEngine
