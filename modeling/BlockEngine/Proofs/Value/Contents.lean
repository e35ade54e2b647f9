/-
  BlockEngine.Proofs.Value.Contents — what a value is made of, and what can be observed of it.

  Who frees a value and where its elements are stored is no part of its contents. A copy has the contents
  of what it was made of, the tags of copies, and cells of its own; so nothing that was freed before it was
  made, and nothing that is freed of other values afterwards, shows in it.

  Proved:
  - `Indistinct.of_contents`: no coercion, comparison or encoding tells values of the same contents apart.
  - `unplaced_copy`: a copy is the contents of its original, but for the cells.
  - `intact_copy`, `Frees.intact`: no element of a copy is freed, nor is one by freeing what is stored in cells
    that were handed out before.
-/

import BlockEngine.Proofs.Wire.Values
import Mathlib.Data.List.Forall2
import BlockEngine.Value.Storage

namespace BlockEngine

/-! ## Contents -/

namespace Value

mutual

/-- The kinds and payloads of a value, at every position, with the tags of a copy and in no cell. -/
def contents : Value → Value
  | .scalar _ x => .scalar .static x
  | .list _ _ items => .list .managed 0 (contentsAll items)

def contentsAll : List Value → List Value
  | [] => []
  | v :: vs => v.contents :: contentsAll vs

end

mutual

/-- The value with its tags, in no cell. -/
def unplaced : Value → Value
  | .scalar o x => .scalar o x
  | .list o _ items => .list o 0 (unplacedAll items)

def unplacedAll : List Value → List Value
  | [] => []
  | v :: vs => v.unplaced :: unplacedAll vs

end

/-- The value has the tag of a copy. -/
def Tagged : Value → Prop
  | .scalar o _ => o = .static
  | .list o _ _ => o = .managed

/-- The value's elements, if it is a list, are stored in one of some cells. -/
def StoredIn (C : Cell → Prop) : Value → Prop
  | .scalar _ _ => True
  | .list _ c _ => C c

theorem contentsAll_eq (vs : List Value) : contentsAll vs = vs.map contents := by
  induction vs with
  | nil => rfl
  | cons v vs ih => simp [contentsAll, ih]

mutual

theorem contents_contents : ∀ v : Value, v.contents.contents = v.contents
  | .scalar o x => rfl
  | .list o c items => by simp [contents, contentsAll_contentsAll items]

theorem contentsAll_contentsAll : ∀ vs : List Value, contentsAll (contentsAll vs) = contentsAll vs
  | [] => rfl
  | v :: vs => by simp [contentsAll, contents_contents v, contentsAll_contentsAll vs]

end

mutual

theorem contents_unplaced : ∀ v : Value, v.unplaced.contents = v.contents
  | .scalar o x => rfl
  | .list o c items => by simp [contents, unplaced, contentsAll_unplacedAll items]

theorem contentsAll_unplacedAll : ∀ vs : List Value, contentsAll (unplacedAll vs) = contentsAll vs
  | [] => rfl
  | v :: vs => by simp [contentsAll, unplacedAll, contents_unplaced v, contentsAll_unplacedAll vs]

end

mutual

/-- With the tags of a copy, a value is its contents but for the cells. -/
theorem unplaced_retagged : ∀ v : Value, v.retagged.unplaced = v.contents
  | .scalar o x => rfl
  | .list o c items => by simp [contents, retagged, unplaced, unplacedAll_retaggedAll items]

theorem unplacedAll_retaggedAll : ∀ vs : List Value, unplacedAll (retaggedAll vs) = contentsAll vs
  | [] => rfl
  | v :: vs => by simp [contentsAll, retaggedAll, unplacedAll, unplaced_retagged v, unplacedAll_retaggedAll vs]

end

mutual

/-- What has the contents of a copy has its tags, if it does not say where it is stored. -/
theorem tagged_of_unplaced : ∀ {v w : Value}, v.unplaced = w.contents → v.Everywhere Tagged
  | .scalar o x, w, h => by
    rw [everywhere_scalar]
    cases w with
    | scalar p y =>
      cases h
      rfl
    | list p c items => cases h
  | .list o c items, w, h => by
    rw [everywhere_list]
    cases w with
    | scalar p y => cases h
    | list p d items' =>
      rw [unplaced, contents, Value.list.injEq] at h
      exact ⟨h.1, tagged_of_unplacedAll h.2.2⟩

theorem tagged_of_unplacedAll : ∀ {vs ws : List Value}, unplacedAll vs = contentsAll ws → ∀ v ∈ vs, v.Everywhere Tagged
  | [], ws, _ => by simp
  | v :: vs, ws, h => by
    cases ws with
    | nil => cases h
    | cons w ws =>
      rw [unplacedAll, contentsAll, List.cons.injEq] at h
      exact List.forall_mem_cons.mpr ⟨tagged_of_unplaced h.1, tagged_of_unplacedAll h.2⟩

end

/-! ## Observers -/

theorem kind_contents (v : Value) : v.contents.kind = v.kind := by cases v <;> rfl

theorem chain?_contents (v : Value) : v.contents.chain? = v.chain? := by
  cases v with
  | scalar o x => cases x <;> rfl
  | list o c items => rfl

theorem marker?_contents (v : Value) : v.contents.marker? = v.marker? := by
  cases v with
  | scalar o x => cases x <;> rfl
  | list o c items => rfl

theorem length_contents (v : Value) : v.contents.length = v.length := by
  cases v with
  | scalar o x => cases x <;> rfl
  | list o c items => simp [contents, length, contentsAll_eq]

theorem toInt64?_contents (v : Value) : v.contents.toInt64? = v.toInt64? := by
  cases v with
  | scalar o x => rfl
  | list o c items => simp [contents, toInt64?, contentsAll_eq]

theorem toDouble_contents (v : Value) : v.contents.toDouble = v.toDouble := by
  cases v with
  | scalar o x => rfl
  | list o c items => simp [contents, toDouble, contentsAll_eq]

theorem toBool_contents (v : Value) : v.contents.toBool = v.toBool := by
  cases v with
  | scalar o x => rfl
  | list o c items => simp [contents, toBool, contentsAll_eq]

theorem isNumeric_contents (v : Value) : v.contents.isNumeric = v.isNumeric := by cases v <;> rfl

mutual

theorem toText_contents : ∀ v : Value, v.contents.toText = v.toText
  | .scalar o x => rfl
  | .list o c items => by simp [contents, toText, texts_contentsAll items]

theorem texts_contentsAll : ∀ vs : List Value, texts (contentsAll vs) = texts vs
  | [] => rfl
  | v :: vs => by simp [contentsAll, texts, toText_contents v, texts_contentsAll vs]

end

theorem equalFlat_contents (a b : Value) : a.contents.equalFlat b.contents = a.equalFlat b := by
  simp [equalFlat, isNumeric_contents, toDouble_contents, toText_contents]

mutual

theorem equal_contents : ∀ a b : Value, a.contents.equal b.contents = a.equal b
  | .list o c xs, .list p d ys => by simp [contents, equal, equalAll_contentsAll xs ys]
  | .list o c xs, .scalar p t => equalFlat_contents (.list o c xs) (.scalar p t)
  | .scalar o s, b => equalFlat_contents (.scalar o s) b

theorem equalAll_contentsAll : ∀ xs ys : List Value, equalAll (contentsAll xs) (contentsAll ys) = equalAll xs ys
  | [], [] => rfl
  | [], _ :: _ => rfl
  | _ :: _, [] => rfl
  | x :: xs, y :: ys => by simp [contentsAll, equalAll, equal_contents x y, equalAll_contentsAll xs ys]

end

mutual

theorem ofValue_contents : ∀ v : Value, Wire.Record.ofValue v.contents = Wire.Record.ofValue v
  | .scalar o s => by cases s <;> rfl
  | .list o c items => by
    rw [contents, Wire.Record.ofValue, Wire.Record.ofValue, ofValues_contentsAll items]

theorem ofValues_contentsAll : ∀ vs : List Value, Wire.Record.ofValues (contentsAll vs) = Wire.Record.ofValues vs
  | [] => rfl
  | v :: vs => by
    rw [contentsAll, Wire.Record.ofValues, Wire.Record.ofValues, ofValue_contents v, ofValues_contentsAll vs]

end

/-- Nothing that is read off values tells these two apart. -/
structure Indistinct (v w : Value) : Prop where
  contents : v.contents = w.contents
  kind : v.kind = w.kind
  text : v.toText = w.toText
  int? : v.toInt64? = w.toInt64?
  int : v.toInt64 = w.toInt64
  double : v.toDouble = w.toDouble
  bool : v.toBool = w.toBool
  numeric : v.isNumeric = w.isNumeric
  length : v.length = w.length
  chain : v.chain? = w.chain?
  marker : v.marker? = w.marker?
  encode : ∀ k : Wire.Codec, k.encode v = k.encode w

theorem Indistinct.of_contents {v w : Value} (h : v.contents = w.contents) : Indistinct v w := by
  have hint? : v.toInt64? = w.toInt64? := by rw [← toInt64?_contents v, h, toInt64?_contents]
  have hrecord : Wire.Record.ofValue v = Wire.Record.ofValue w := by
    rw [← ofValue_contents v, h, ofValue_contents]
  constructor
  · exact h
  · rw [← kind_contents v, h, kind_contents]
  · rw [← toText_contents v, h, toText_contents]
  · exact hint?
  · rw [toInt64, toInt64, hint?]
  · rw [← toDouble_contents v, h, toDouble_contents]
  · rw [← toBool_contents v, h, toBool_contents]
  · rw [← isNumeric_contents v, h, isNumeric_contents]
  · rw [← length_contents v, h, length_contents]
  · rw [← chain?_contents v, h, chain?_contents]
  · rw [← marker?_contents v, h, marker?_contents]
  · intro k
    rw [Wire.Codec.encode, Wire.Codec.encode, hrecord]

/-- Two values are equal if what cannot be told from them is. -/
theorem equal_congr {v v' w w' : Value} (hv : v.contents = v'.contents) (hw : w.contents = w'.contents) :
    v.equal w = v'.equal w' := by
  rw [← equal_contents v, hv, hw, equal_contents]

end Value

/-! ## Storage -/

namespace Storage

open Value (StoredIn)

/-- Only places of cells that were handed out have been emptied. -/
def Sound (s : Storage) : Prop := ∀ c i, s.isEmptied c i = true → c < s.next

theorem sound_new : Sound {} := by
  intro c i h
  simp [isEmptied] at h

/-! ### What is there of a value -/

mutual

/-- What is there of a value depends on its own cells only. -/
theorem view_congr {s s' : Storage} : ∀ {v : Value},
    v.Everywhere (StoredIn fun c => ∀ i, s'.isEmptied c i = s.isEmptied c i) → s'.view v = s.view v
  | .scalar o x, _ => by rw [view, view]
  | .list o c items, h => by
    obtain ⟨hself, hitems⟩ := (Value.everywhere_list o c items).mp h
    rw [view, view, viewItems_congr hself 0 hitems]

theorem viewItems_congr {s s' : Storage} {c : Cell} (hc : ∀ i, s'.isEmptied c i = s.isEmptied c i) :
    ∀ (i : Nat) {vs : List Value}, (∀ v ∈ vs, v.Everywhere (StoredIn fun c => ∀ i, s'.isEmptied c i = s.isEmptied c i)) →
      s'.viewItems c i vs = s.viewItems c i vs
  | i, [], _ => by rw [viewItems, viewItems]
  | i, v :: vs, h => by
    obtain ⟨hfirst, hrest⟩ := List.forall_mem_cons.mp h
    rw [viewItems, viewItems, hc, view_congr hfirst, viewItems_congr hc (i + 1) hrest]

end

mutual

/-- All is there of a value of which no element was freed. -/
theorem view_eq_self {s : Storage} : ∀ {v : Value}, v.Everywhere (StoredIn fun c => ∀ i, s.isEmptied c i = false) →
    s.view v = v
  | .scalar o x, _ => by rw [view]
  | .list o c items, h => by
    obtain ⟨hself, hitems⟩ := (Value.everywhere_list o c items).mp h
    rw [view, viewItems_eq_self hself 0 hitems]

theorem viewItems_eq_self {s : Storage} {c : Cell} (hc : ∀ i, s.isEmptied c i = false) : ∀ (i : Nat) {vs : List Value},
    (∀ v ∈ vs, v.Everywhere (StoredIn fun c => ∀ i, s.isEmptied c i = false)) → s.viewItems c i vs = vs
  | i, [], _ => by rw [viewItems]
  | i, v :: vs, h => by
    obtain ⟨hfirst, hrest⟩ := List.forall_mem_cons.mp h
    rw [viewItems, hc, view_eq_self hfirst, viewItems_eq_self hc (i + 1) hrest]
    rfl

end

mutual

theorem view_view (s : Storage) : ∀ v : Value, s.view (s.view v) = s.view v
  | .scalar o x => by rw [view, view]
  | .list o c items => by rw [view, view, viewItems_viewItems s c 0 items]

theorem viewItems_viewItems (s : Storage) (c : Cell) : ∀ (i : Nat) (vs : List Value),
    s.viewItems c i (s.viewItems c i vs) = s.viewItems c i vs
  | i, [] => by rw [viewItems, viewItems]
  | i, v :: vs => by
    rw [viewItems, viewItems, viewItems_viewItems s c (i + 1) vs]
    cases s.isEmptied c i with
    | true => rfl
    | false =>
      rw [if_neg Bool.false_ne_true, if_neg Bool.false_ne_true, view_view s v]

end

/-- Cells were handed out, and nothing was freed. -/
structure Extends (s s' : Storage) : Prop where
  emptied : s'.emptied = s.emptied
  next : s.next ≤ s'.next

section

variable {s s' s'' : Storage}

theorem Extends.refl (s : Storage) : Extends s s := ⟨rfl, Nat.le_refl _⟩

theorem Extends.trans (h : Extends s s') (h' : Extends s' s'') : Extends s s'' :=
  ⟨h'.emptied.trans h.emptied, Nat.le_trans h.next h'.next⟩

theorem Extends.isEmptied (h : Extends s s') (c : Cell) (i : Nat) : s'.isEmptied c i = s.isEmptied c i := by
  rw [Storage.isEmptied, Storage.isEmptied, h.emptied]

theorem Extends.view (h : Extends s s') (v : Value) : s'.view v = s.view v := by
  refine view_congr fun u _ => ?_
  cases u with
  | scalar o x => trivial
  | list o c items => exact h.isEmptied c

theorem Extends.sound (h : Extends s s') (hs : s.Sound) : s'.Sound := by
  intro c i hc
  rw [h.isEmptied] at hc
  exact Nat.lt_of_lt_of_le (hs c i hc) h.next

end

/-! ### Fresh cells -/

mutual

theorem extends_place : ∀ (v : Value) (s : Storage), Extends s (place v s).2
  | .scalar o x, s => by
    rw [place]
    exact .refl s
  | .list o c items, s => by
    have hcell : Extends s { s with next := s.next + 1 } := ⟨rfl, Nat.le_succ _⟩
    rw [place]
    exact hcell.trans (extends_placeAll items _)

theorem extends_placeAll : ∀ (vs : List Value) (s : Storage), Extends s (placeAll vs s).2
  | [], s => by
    rw [placeAll]
    exact .refl s
  | v :: vs, s => by
    rw [placeAll]
    exact (extends_place v s).trans (extends_placeAll vs _)

end

mutual

theorem unplaced_place : ∀ (v : Value) (s : Storage), (place v s).1.unplaced = v.unplaced
  | .scalar o x, s => by rw [place]
  | .list o c items, s => by
    rw [place, Value.unplaced, Value.unplaced, unplacedAll_placeAll items]

theorem unplacedAll_placeAll : ∀ (vs : List Value) (s : Storage),
    Value.unplacedAll (placeAll vs s).1 = Value.unplacedAll vs
  | [], s => by rw [placeAll]
  | v :: vs, s => by
    rw [placeAll, Value.unplacedAll, Value.unplacedAll, unplaced_place v, unplacedAll_placeAll vs]

end

theorem storedIn_mono {C D : Cell → Prop} (h : ∀ c, C c → D c) {v : Value} (hv : v.Everywhere (StoredIn C)) :
    v.Everywhere (StoredIn D) := by
  intro u hu
  cases u with
  | scalar o x => trivial
  | list o c items => exact h c (hv _ hu)

mutual

theorem storedIn_place : ∀ (v : Value) (s : Storage),
    (place v s).1.Everywhere (StoredIn fun c => s.next ≤ c ∧ c < (place v s).2.next)
  | .scalar o x, s => by
    rw [place, Value.everywhere_scalar]
    trivial
  | .list o c items, s => by
    rw [place, Value.everywhere_list]
    have hnext := (extends_placeAll items { s with next := s.next + 1 }).next
    refine ⟨⟨Nat.le_refl _, hnext⟩, fun v hv => ?_⟩
    refine storedIn_mono ?_ (storedIn_placeAll items _ v hv)
    rintro c ⟨hle, hlt⟩
    exact ⟨Nat.le_of_succ_le hle, hlt⟩

theorem storedIn_placeAll : ∀ (vs : List Value) (s : Storage), ∀ w ∈ (placeAll vs s).1,
    w.Everywhere (StoredIn fun c => s.next ≤ c ∧ c < (placeAll vs s).2.next)
  | [], s => by
    rw [placeAll]
    simp
  | v :: vs, s => by
    rw [placeAll]
    have hfirst := extends_place v s
    have hrest := extends_placeAll vs (place v s).2
    refine List.forall_mem_cons.mpr ⟨?_, fun w hw => ?_⟩
    · refine storedIn_mono ?_ (storedIn_place v s)
      rintro c ⟨hle, hlt⟩
      exact ⟨hle, Nat.lt_of_lt_of_le hlt hrest.next⟩
    · refine storedIn_mono ?_ (storedIn_placeAll vs _ w hw)
      rintro c ⟨hle, hlt⟩
      exact ⟨Nat.le_trans hfirst.next hle, hlt⟩

end

/-! ### Copies -/

/-- All is there of the value, in cells that were handed out, none of them before the cell `n`. -/
def Intact (s : Storage) (n : Cell) (v : Value) : Prop :=
  v.Everywhere (StoredIn fun c => n ≤ c ∧ c < s.next ∧ ∀ i, s.isEmptied c i = false)

section

variable {s s' : Storage} {n : Cell} {v : Value}

theorem Intact.view_eq (h : s.Intact n v) : s.view v = v := view_eq_self (storedIn_mono (fun _ hc => hc.2.2) h)

theorem Intact.extends (h : s.Intact n v) (hs : Extends s s') : s'.Intact n v := by
  refine storedIn_mono ?_ h
  rintro c ⟨hle, hlt, hall⟩
  exact ⟨hle, Nat.lt_of_lt_of_le hlt hs.next, fun i => (hs.isEmptied c i).trans (hall i)⟩

end

section

variable (s : Storage) (v : Value)

theorem extends_copy : Extends s (s.copy v).2 := extends_place _ s

/-- A copy is what its original is made of as it is now, but for the cells. -/
theorem unplaced_copy : (s.copy v).1.unplaced = (s.view v).contents := by
  rw [copy, unplaced_place, Value.unplaced_retagged]

theorem contents_copy : (s.copy v).1.contents = (s.view v).contents := by
  rw [← Value.contents_unplaced, unplaced_copy, Value.contents_contents]

/-- A copy is stored in cells that were not handed out before. -/
theorem storedIn_copy : (s.copy v).1.Everywhere (StoredIn fun c => s.next ≤ c ∧ c < (s.copy v).2.next) :=
  storedIn_place _ s

variable {s}

/-- No element of a copy has been freed. -/
theorem intact_copy (hs : s.Sound) : (s.copy v).2.Intact s.next (s.copy v).1 := by
  refine storedIn_mono ?_ (s.storedIn_copy v)
  rintro c ⟨hle, hlt⟩
  refine ⟨hle, hlt, fun i => ?_⟩
  rw [(s.extends_copy v).isEmptied]
  by_contra hemptied
  have hold : c < s.next := hs c i (by simpa using hemptied)
  exact absurd hold (Nat.not_lt.mpr hle)

theorem extends_copyAll : ∀ (vs : List Value) (s : Storage), Extends s (s.copyAll vs).2
  | [], s => by
    rw [copyAll]
    exact .refl s
  | v :: vs, s => by
    rw [copyAll]
    exact (s.extends_copy v).trans (extends_copyAll vs _)

/-- Copies of some values, one after the other, are each what they were made of. -/
theorem copyAll_forall₂ {s₀ : Storage} : ∀ (vs : List Value) {s : Storage}, s.Sound → Extends s₀ s →
    List.Forall₂ (fun v c => c.contents = (s₀.view v).contents ∧ (s.copyAll vs).2.Intact s₀.next c) vs (s.copyAll vs).1
  | [], s, _, _ => by
    rw [copyAll]
    exact .nil
  | v :: vs, s, hs, h => by
    rw [copyAll]
    have hcopy := s.extends_copy v
    refine .cons ⟨?_, ?_⟩ (copyAll_forall₂ vs (hcopy.sound hs) (h.trans hcopy))
    · rw [contents_copy, h.view]
    · have hintact := (intact_copy v hs).extends (extends_copyAll vs (s.copy v).2)
      exact storedIn_mono (fun _ hc => ⟨Nat.le_trans h.next hc.1, hc.2⟩) hintact

end

/-! ### What is freed elsewhere -/

section

variable {c : Cell}

mutual

theorem isEmptied_free : ∀ (v : Value) (s : Storage) (i : Nat), v.Everywhere (StoredIn (· ≠ c)) →
    (s.free v).isEmptied c i = s.isEmptied c i
  | .scalar o x, s, i, _ => by rw [free]; simp
  | .list o d items, s, i, h => by
    obtain ⟨hself, hitems⟩ := (Value.everywhere_list o d items).mp h
    cases o with
    | managed => rw [free, isEmptied_freeItems hself 0 items s i hitems]
    | static => rw [free]; simp
    | unmanaged => rw [free]; simp

theorem isEmptied_freeItems {d : Cell} (hd : d ≠ c) : ∀ (j : Nat) (vs : List Value) (s : Storage) (i : Nat),
    (∀ v ∈ vs, v.Everywhere (StoredIn (· ≠ c))) → (freeItems d j vs s).isEmptied c i = s.isEmptied c i
  | j, [], s, i, _ => by rw [freeItems]
  | j, v :: vs, s, i, h => by
    obtain ⟨hfirst, hrest⟩ := List.forall_mem_cons.mp h
    rw [freeItems]
    split
    · rw [isEmptied_freeItems hd (j + 1) vs s i hrest]
    · rw [isEmptied_freeItems hd (j + 1) vs _ i hrest]
      have hne : ¬(c = d ∧ i = j) := fun hcd => hd hcd.1.symm
      rw [← isEmptied_free v s i hfirst]
      simp [isEmptied, hne]

end

theorem isEmptied_release {v : Value} (h : v.Everywhere (StoredIn (· ≠ c))) (s : Storage) (i : Nat) :
    (s.release v).isEmptied c i = s.isEmptied c i := by
  unfold release
  split
  · exact isEmptied_free v s i h
  · rfl

end

mutual

theorem next_free : ∀ (v : Value) (s : Storage), (s.free v).next = s.next
  | .scalar o x, s => by rw [free]; simp
  | .list .managed c items, s => by rw [free, next_freeItems c 0 items s]
  | .list .static c items, s => by rw [free]; simp
  | .list .unmanaged c items, s => by rw [free]; simp

theorem next_freeItems (c : Cell) : ∀ (j : Nat) (vs : List Value) (s : Storage), (freeItems c j vs s).next = s.next
  | j, [], s => by rw [freeItems]
  | j, v :: vs, s => by
    rw [freeItems]
    split
    · rw [next_freeItems c (j + 1) vs s]
    · rw [next_freeItems c (j + 1) vs]
      exact next_free v s

end

theorem next_release (v : Value) (s : Storage) : (s.release v).next = s.next := by
  unfold release
  split
  · exact next_free v s
  · rfl

/-- What is stored before a cell was freed, and no new cell was handed out. -/
structure Frees (n : Cell) (s s' : Storage) : Prop where
  next : s'.next = s.next
  isEmptied : ∀ c, n ≤ c → ∀ i, s'.isEmptied c i = s.isEmptied c i

section

variable {n : Cell} {s s' s'' : Storage}

theorem Frees.refl (n : Cell) (s : Storage) : Frees n s s := ⟨rfl, fun _ _ _ => rfl⟩

theorem Frees.trans (h : Frees n s s') (h' : Frees n s' s'') : Frees n s s'' :=
  ⟨h'.next.trans h.next, fun c hc i => (h'.isEmptied c hc i).trans (h.isEmptied c hc i)⟩

theorem Frees.intact (h : Frees n s s') {v : Value} (hv : s.Intact n v) : s'.Intact n v := by
  refine storedIn_mono ?_ hv
  rintro c ⟨hle, hlt, hall⟩
  exact ⟨hle, h.next.symm ▸ hlt, fun i => (h.isEmptied c hle i).trans (hall i)⟩

theorem Frees.sound (h : Frees n s s') (hs : s.Sound) (hn : n ≤ s.next) : s'.Sound := by
  intro c i hc
  rw [h.next]
  rcases Nat.lt_or_ge c s.next with hlt | hge
  · exact hlt
  · rw [h.isEmptied c (Nat.le_trans hn hge)] at hc
    exact hs c i hc

theorem frees_release {v : Value} (hv : v.Everywhere (StoredIn (· < n))) (s : Storage) : Frees n s (s.release v) := by
  refine ⟨next_release v s, fun c hc i => isEmptied_release (storedIn_mono ?_ hv) s i⟩
  rintro d hd rfl
  exact absurd hd (Nat.not_lt.mpr hc)

theorem frees_releaseAll {vs : List Value} (hvs : ∀ v ∈ vs, v.Everywhere (StoredIn (· < n))) (s : Storage) :
    Frees n s (s.releaseAll vs) := by
  induction vs generalizing s with
  | nil => exact .refl n s
  | cons v vs ih =>
    obtain ⟨hfirst, hrest⟩ := List.forall_mem_cons.mp hvs
    exact (frees_release hfirst s).trans (ih hrest _)

end

end Storage

end BlockEngine
