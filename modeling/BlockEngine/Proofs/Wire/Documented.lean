/-
  BlockEngine.Proofs.Wire.Documented — what is relied on of the CBOR library.

  Documented of it (`Codec.Documented`): records are maps without their empty fields; writing is
  canonical, and what is written is read back if it keeps to the default limits, 32 levels and
  131072 elements; a map fills a record by its keys, and texts must be UTF-8; null leaves a record
  at zero. What is read otherwise may come from bytes that no writer makes: of that only the limits
  are known, and where in a map the text and the list of a record come from.

  Proved of any such library: a record is filled again by the map it was written as, if its texts
  are UTF-8 (`unpack_toItem`).
-/

import BlockEngine.Text.Quoted
import BlockEngine.Wire.Codec
import Mathlib.Order.Lattice

namespace BlockEngine.Wire

/-! ## Success and failure -/

/-- Something succeeds exactly if a condition holds, with an answer. -/
structure OkIff {ε α : Type} (r : Except ε α) (good : Prop) (a : α) : Prop where
  ok : good → r = .ok a
  error : ¬ good → ∃ e, r = .error e

namespace OkIff

variable {ε α β : Type} {r r' : Except ε α} {good good' : Prop} {a : α}

theorem of_ok (h : r = .ok a) (hgood : good) : OkIff r good a := ⟨fun _ => h, fun hn => (hn hgood).elim⟩

theorem of_error {e : ε} (h : r = .error e) (hgood : ¬ good) : OkIff r good a :=
  ⟨fun hg => (hgood hg).elim, fun _ => ⟨e, h⟩⟩

theorem congr (h : OkIff r good a) (hr : r' = r) (hgood : good' ↔ good) : OkIff r' good' a := by
  rw [hr]
  exact ⟨fun hg => h.ok (hgood.mp hg), fun hg => h.error fun hg' => hg (hgood.mpr hg')⟩

theorem bind {f : α → Except ε β} {b : β} (h : OkIff r good a) (hf : good → OkIff (f a) good' b) :
    OkIff (r >>= f) (good ∧ good') b := by
  by_cases hg : good
  · rw [h.ok hg]
    exact (hf hg).congr rfl (and_iff_right hg)
  · obtain ⟨e, he⟩ := h.error hg
    rw [he]
    exact of_error rfl fun hgood => hg hgood.1

theorem map (h : OkIff r good a) (f : α → β) : OkIff (r >>= fun x => .ok (f x)) good (f a) := by
  have hmap : OkIff (r >>= fun x => .ok (f x)) (good ∧ True) (f a) := h.bind fun _ => of_ok rfl trivial
  exact hmap.congr rfl (by simp)

/-- What is refused beforehand unless a condition holds. -/
theorem guarded {c : Prop} [Decidable c] (e : ε) (h : ¬ c → OkIff r good a) :
    OkIff (if c then .error e else r) (¬ c ∧ good) a := by
  by_cases hc : c
  · rw [if_pos hc]
    exact of_error rfl fun hg => hg.1 hc
  · rw [if_neg hc]
    exact (h hc).congr rfl (and_iff_right hc)

theorem isOk_iff (h : OkIff r good a) : (∃ x, r = .ok x) ↔ good := by
  by_cases hg : good
  · exact iff_of_true ⟨a, h.ok hg⟩ hg
  · obtain ⟨e, he⟩ := h.error hg
    refine iff_of_false (fun ⟨x, hx⟩ => ?_) hg
    rw [he] at hx
    cases hx

theorem eq_of_ok (h : OkIff r good a) {x : α} (hx : r = .ok x) : x = a := by
  have hok := h.ok (h.isOk_iff.mp ⟨x, hx⟩)
  rw [hx] at hok
  exact Except.ok.inj hok

end OkIff

/-- A step and what follows it. -/
theorem bind_eq_ok {ε α β : Type} {r : Except ε α} {f : α → Except ε β} {b : β} (h : (r >>= f) = .ok b) :
    ∃ a, r = .ok a ∧ f a = .ok b := by
  cases r with
  | error e => cases h
  | ok a => exact ⟨a, rfl, h⟩

/-! ## Items -/

/-- The number, or the NaN without a payload if it is no number. -/
def canonical (x : Double) : Double := if x.isNaN then .nan else x

mutual

/-- The item with every NaN canonical. -/
def Item.settled : Item → Item
  | .array items => .array (settledAll items)
  | .map entries => .map (settledAll entries)
  | .float x => .float (canonical x)
  | x => x

def settledAll : List Item → List Item
  | [] => []
  | x :: xs => x.settled :: settledAll xs

end

mutual

/-- How many arrays and maps lie one within the other. -/
def Item.height : Item → Nat
  | .array items => heightAll items + 1
  | .map entries => heightAll entries + 1
  | _ => 0

def heightAll : List Item → Nat
  | [] => 0
  | x :: xs => max x.height (heightAll xs)

end

mutual

/-- No array has more elements and no map more entries than the reader takes. -/
def Item.Small : Item → Prop
  | .array items => items.length ≤ maxElements ∧ SmallAll items
  | .map entries => entries.length / 2 ≤ maxElements ∧ SmallAll entries
  | _ => True

def SmallAll : List Item → Prop
  | [] => True
  | x :: xs => x.Small ∧ SmallAll xs

end

mutual

/-- An item that records are made of, whose numbers and lengths have heads. -/
def Item.Plain : Item → Prop
  | .unsigned n => n < 2 ^ 64
  | .negative n => n < 2 ^ 64
  | .text [t] => t.length < 2 ^ 63
  | .array items => items.length < 2 ^ 63 ∧ PlainAll items
  | .map entries => entries.length % 2 = 0 ∧ entries.length < 2 ^ 63 ∧ PlainAll entries
  | .float _ => True
  | _ => False

def PlainAll : List Item → Prop
  | [] => True
  | x :: xs => x.Plain ∧ PlainAll xs

end

/-! ## Items that were read -/

/-- An item out of at most `n` bytes and `d` levels: every array and every map takes a level. -/
inductive Item.Fits (n : Nat) : Nat → Item → Prop where
  | unsigned {d k : Nat} : Fits n d (.unsigned k)
  | negative {d k : Nat} : Fits n d (.negative k)
  | bytes {d : Nat} {chunks : List Text} : Fits n d (.bytes chunks)
  | text {d : Nat} {chunks : List Text} (h : chunks.flatten.length ≤ n) : Fits n d (.text chunks)
  | array {d : Nat} {items : List Item} (hcount : items.length ≤ maxElements) (h : ∀ x ∈ items, Fits n d x) :
    Fits n (d + 1) (.array items)
  | map {d : Nat} {entries : List Item} (h : ∀ x ∈ entries, Fits n d x) : Fits n (d + 1) (.map entries)
  | tag {d k : Nat} {x : Item} (h : Fits n d x) : Fits n d (.tag k x)
  | simple {d k : Nat} : Fits n d (.simple k)
  | float {d : Nat} {x : Double} : Fits n d (.float x)

theorem Item.Fits.mono {n d e : Nat} {x : Item} (h : x.Fits n d) (hle : d ≤ e) : x.Fits n e := by
  induction h generalizing e with
  | array hcount _ ih =>
    obtain ⟨e, rfl⟩ : ∃ e', e = e' + 1 := ⟨e - 1, by omega⟩
    exact .array hcount fun x hx => ih x hx (by omega)
  | map _ ih =>
    obtain ⟨e, rfl⟩ : ∃ e', e = e' + 1 := ⟨e - 1, by omega⟩
    exact .map fun x hx => ih x hx (by omega)
  | tag _ ih => exact .tag (ih hle)
  | text h => exact .text h
  | unsigned => exact .unsigned
  | negative => exact .negative
  | bytes => exact .bytes
  | simple => exact .simple
  | float => exact .float

/-- An item without the tags around it. -/
def Item.bare : Item → Item
  | .tag _ x => x.bare
  | x => x

theorem Item.Fits.bare {n d : Nat} {x : Item} (h : x.Fits n d) : x.bare.Fits n d := by
  induction h with
  | tag _ ih => exact ih
  | array hcount h => exact .array hcount h
  | map h => exact .map h
  | text h => exact .text h
  | unsigned => exact .unsigned
  | negative => exact .negative
  | bytes => exact .bytes
  | simple => exact .simple
  | float => exact .float

/-! ## Items of records -/

theorem settledAll_append (xs ys : List Item) : settledAll (xs ++ ys) = settledAll xs ++ settledAll ys := by
  induction xs with
  | nil => rfl
  | cons x xs ih => simp [settledAll, ih]

theorem settled_ofInt (n : Int) : (Item.ofInt n).settled = Item.ofInt n := by
  unfold Item.ofInt
  split <;> rfl

theorem settledAll_field (number : Nat) (omitted : Bool) (x : Item) :
    settledAll (Record.field number omitted x) = Record.field number omitted x.settled := by
  cases omitted <;> rfl

namespace Record

mutual

/-- The record as it is read back: a zero is positive, and a NaN has no payload. -/
def settled : Record → Record
  | .mk kind int double text list =>
    .mk kind int (if double.isZero then .zero else canonical double) text (settledList list)

def settledList : List Record → List Record
  | [] => []
  | r :: rs => r.settled :: settledList rs

end

mutual

def Utf8 : Record → Prop
  | .mk _ _ _ text list => Text.Utf8.isValid text = true ∧ Utf8List list

def Utf8List : List Record → Prop
  | [] => True
  | r :: rs => r.Utf8 ∧ Utf8List rs

end

/-- The entries of a map with the fields of a record, but for those that are left out. -/
def entries (kind : UInt8) (int : Int64) (double : Double) (text : Text) (items : List Item)
    (noInt noDouble noText noList : Bool) : List Item :=
  field 1 false (.unsigned kind.toNat) ++ field 2 noInt (.ofInt int.toInt) ++ field 3 noDouble (.float double) ++
    field 4 noText (.text [text]) ++ field 5 noList (.array items)

theorem settled_toItem (kind : UInt8) (int : Int64) (double : Double) (text : Text) (list : List Record) :
    (toItem (.mk kind int double text list)).settled =
      .map (entries kind int (canonical double) text (settledAll (toItems list)) (int == 0) double.isZero text.isEmpty
        list.isEmpty) := by
  simp only [toItem, entries, Item.settled, settledAll_append, settledAll_field, settled_ofInt]

end Record

/-! ## The library -/

/-- Where the text and the list of a record come from: a text of the map in UTF-8, and an array of it that was
    unpacked element by element. -/
def Codec.FilledFrom (k : Codec) (entries : List Item) : Record → Prop
  | .mk _ _ _ text list =>
    (text = [] ∨ ∃ x ∈ entries, ∃ chunks, x.bare = .text chunks ∧ chunks.all Text.Utf8.isValid = true ∧
      text = chunks.flatten) ∧
    (list = [] ∨ ∃ x ∈ entries, ∃ items, x.bare = .array items ∧ items.mapM k.unpack = .ok list)

/-- What is documented of the library, with canonical encoding and default decoding. -/
structure Codec.Documented (k : Codec) : Prop where
  /-- A record is a map from field numbers, without fields that are zero or empty. -/
  omits_empty : ∀ r : Record, k.pack r = r.toItem
  /-- What is written is read back within the limits, with any NaN canonical. -/
  reads_back : ∀ x : Item, x.Plain → OkIff (k.read (k.write x)) (x.height ≤ maxDepth ∧ x.Small) x.settled
  /-- Nothing is read beyond the limits, and no text is longer than the bytes. -/
  keeps_limits : ∀ (t : Text) (x : Item), k.read t = .ok x → x.Fits t.length maxDepth
  /-- The fields in a map are filled, and the others stay zero; a text must be UTF-8. -/
  fills : ∀ (kind : UInt8) (int : Int64) (double : Double) (text : Text) (items : List Item)
    (noInt noDouble noText noList : Bool) (good : Prop) (list : List Record),
    OkIff (items.mapM k.unpack) good list →
      OkIff (k.unpack (.map (Record.entries kind int double text items noInt noDouble noText noList)))
        ((noText = true ∨ Text.Utf8.isValid text = true) ∧ (noList = true ∨ good))
        (.mk kind (if noInt then 0 else int) (if noDouble then .zero else double) (if noText then [] else text)
          (if noList then [] else list))
  /-- An array is unpacked element by element. -/
  elementwise : ∀ items : List Item, k.unpackAll (.array items) = items.mapM k.unpack
  /-- Only null and maps are unpacked to a record, and null leaves it at zero. -/
  null_or_map : ∀ (x : Item) (r : Record), k.unpack x = .ok r →
    (∃ n, x.bare = .simple n) ∧ r = .blank ∨ ∃ entries, x.bare = .map entries ∧ k.FilledFrom entries r

namespace Codec.Documented

variable {k : Codec}

theorem pack_all (hk : k.Documented) (rs : List Record) : rs.map k.pack = Record.toItems rs := by
  induction rs with
  | nil => rfl
  | cons r rs ih => rw [List.map_cons, ih, hk.omits_empty, Record.toItems]

mutual

/-- A record is filled again by the map it was written as, if its texts are UTF-8 and only then. -/
theorem unpack_toItem (hk : k.Documented) : ∀ r : Record, OkIff (k.unpack r.toItem.settled) r.Utf8 r.settled
  | .mk kind int double text list => by
    have hfills := hk.fills kind int (canonical double) text (settledAll (Record.toItems list)) (int == 0) double.isZero
      text.isEmpty list.isEmpty _ _ (unpack_toItems hk list)
    have hint : (if (int == 0) = true then 0 else int) = int := by
      split
      next h => exact (beq_iff_eq.mp h).symm
      · rfl
    have htext : (if text.isEmpty = true then [] else text) = text := by cases text <;> rfl
    have hlist : (if list.isEmpty = true then [] else Record.settledList list) = Record.settledList list := by
      cases list <;> rfl
    rw [hint, htext, hlist] at hfills
    refine hfills.congr (by rw [Record.settled_toItem]) (and_congr ?_ ?_)
    · cases text <;> simp [Text.Utf8.isValid, Text.Utf8.decode]
    · cases list <;> simp [Record.Utf8List]

theorem unpack_toItems (hk : k.Documented) : ∀ rs : List Record,
    OkIff ((settledAll (Record.toItems rs)).mapM k.unpack) (Record.Utf8List rs) (Record.settledList rs)
  | [] => .of_ok rfl trivial
  | r :: rs => by
    have h : OkIff (k.unpack r.toItem.settled >>= fun y => (settledAll (Record.toItems rs)).mapM k.unpack >>= fun ys =>
        .ok (y :: ys)) (r.Utf8 ∧ Record.Utf8List rs) (r.settled :: Record.settledList rs) :=
      (unpack_toItem hk r).bind fun _ => (unpack_toItems hk rs).map fun rs' => r.settled :: rs'
    exact h.congr (by rw [Record.toItems, settledAll, List.mapM_cons]; rfl) Iff.rfl

end

end Codec.Documented

/-! ## Measures of records' items -/

theorem heightAll_append (xs ys : List Item) : heightAll (xs ++ ys) = max (heightAll xs) (heightAll ys) := by
  induction xs with
  | nil => simp [heightAll]
  | cons x xs ih => simp [heightAll, ih, Nat.max_assoc]

theorem smallAll_append (xs ys : List Item) : SmallAll (xs ++ ys) ↔ SmallAll xs ∧ SmallAll ys := by
  induction xs with
  | nil => simp [SmallAll]
  | cons x xs ih => simp [SmallAll, ih, and_assoc]

theorem plainAll_append (xs ys : List Item) : PlainAll (xs ++ ys) ↔ PlainAll xs ∧ PlainAll ys := by
  induction xs with
  | nil => simp [PlainAll]
  | cons x xs ih => simp [PlainAll, ih, and_assoc]

theorem height_ofInt (n : Int) : (Item.ofInt n).height = 0 := by
  unfold Item.ofInt
  split <;> rfl

theorem small_ofInt (n : Int) : (Item.ofInt n).Small := by
  unfold Item.ofInt
  split <;> trivial

theorem plain_ofInt (n : Int64) : (Item.ofInt n.toInt).Plain := by
  have hlow := n.le_toInt
  have hhigh := n.toInt_lt
  unfold Item.ofInt
  split
  · show (-1 - n.toInt).toNat < 2 ^ 64
    omega
  · show n.toInt.toNat < 2 ^ 64
    omega

namespace Record

theorem heightAll_field (number : Nat) (omitted : Bool) (x : Item) :
    heightAll (field number omitted x) = if omitted then 0 else x.height := by
  cases omitted <;> simp [field, heightAll, Item.height]

theorem smallAll_field (number : Nat) (omitted : Bool) (x : Item) :
    SmallAll (field number omitted x) ↔ (omitted = false → x.Small) := by
  cases omitted <;> simp [field, SmallAll, Item.Small]

theorem plainAll_field {number : Nat} (hn : number < 2 ^ 64) {x : Item} (hx : x.Plain) (omitted : Bool) :
    PlainAll (field number omitted x) := by
  cases omitted
  · exact ⟨hn, hx, trivial⟩
  · trivial

theorem length_field (number : Nat) (omitted : Bool) (x : Item) :
    (field number omitted x).length = if omitted then 0 else 2 := by
  cases omitted <;> rfl

section

variable (kind : UInt8) (int : Int64) (double : Double) (text : Text) (list : List Record)

theorem toItem_height : (toItem (.mk kind int double text list)).height =
    (if list.isEmpty then 0 else heightAll (toItems list) + 1) + 1 := by
  simp [toItem, Item.height, heightAll_append, heightAll_field, height_ofInt]

theorem length_toItems (rs : List Record) : (toItems rs).length = rs.length := by
  induction rs with
  | nil => rfl
  | cons r rs ih => simp [toItems, ih]

/-- Every field that is written has a key and a value. -/
theorem toItem_entries : ∃ entries n, toItem (.mk kind int double text list) = .map entries ∧
    entries.length = 2 * n ∧ n ≤ 5 := by
  refine ⟨_, 1 + (if int == 0 then 0 else 1) + (if double.isZero then 0 else 1) + (if text.isEmpty then 0 else 1) +
    (if list.isEmpty then 0 else 1), rfl, ?_, ?_⟩
  · simp only [List.length_append, length_field]
    split_ifs <;> simp_all
  · split_ifs <;> omega

theorem toItem_small : (toItem (.mk kind int double text list)).Small ↔
    list.length ≤ maxElements ∧ SmallAll (toItems list) := by
  obtain ⟨entries, n, hitem, hlength, hn⟩ := toItem_entries kind int double text list
  have hcount : entries.length / 2 ≤ maxElements := by
    rw [maxElements]
    omega
  have hentries := hitem
  rw [toItem, Item.map.injEq] at hentries
  rw [hitem, Item.Small, and_iff_right hcount, ← hentries]
  cases list <;> simp [smallAll_append, smallAll_field, small_ofInt, length_toItems, Item.Small, toItems, SmallAll]

theorem toItem_plain (ht : text.length < 2 ^ 63) (hl : list.length < 2 ^ 63) (hp : PlainAll (toItems list)) :
    (toItem (.mk kind int double text list)).Plain := by
  obtain ⟨entries, n, hitem, hlength, hn⟩ := toItem_entries kind int double text list
  have hkind : (Item.unsigned kind.toNat).Plain := Nat.lt_trans kind.toNat_lt (by decide)
  have hlist : (Item.array (toItems list)).Plain := ⟨by rwa [length_toItems], hp⟩
  have hentries := hitem
  rw [toItem, Item.map.injEq] at hentries
  rw [hitem]
  refine ⟨by omega, by omega, ?_⟩
  simp only [← hentries, plainAll_append]
  exact ⟨⟨⟨⟨plainAll_field (by decide) hkind _, plainAll_field (by decide) (plain_ofInt int) _⟩,
    plainAll_field (x := .float double) (by decide) trivial _⟩, plainAll_field (x := .text [text]) (by decide) ht _⟩,
    plainAll_field (by decide) hlist _⟩

end

end Record

end BlockEngine.Wire
