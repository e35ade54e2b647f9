/-
  BlockEngine.Proofs.Wire.Cbor.Filling — what records are filled from.

  A map with the fields of a record in order fills them in turn; a field that was left out keeps
  what a blank record has. All that can fail is a text that is not UTF-8, or a list (`ofItem_fills`).
  From any other item comes at most a record whose text and list lie in a map (`ofItem_from`).

  Proved: `cbor_documented`. The codec that the engine runs on is as documented.
-/

import BlockEngine.Proofs.Wire.Cbor.Reading
import BlockEngine.Proofs.Wire.Cbor.Writing
import BlockEngine.Wire.Message

namespace BlockEngine.Wire

namespace Record

/-! ## Filling fields in order -/

/-- A field that was written is filled, if it was not before. -/
theorem fill_written {n : Nat} (hn : 1 ≤ n ∧ n ≤ 5) {seen : List Nat} (hs : ∀ k ∈ seen, k < n) (x : Item) (r : Record)
    (rest : List Item) :
    fill r seen (field n false x ++ rest) =
      if n = 5 then listOfItem x >>= fun rs => fill (r.setList rs) (n :: seen) rest
      else setScalar n x r >>= fun r => fill r (n :: seen) rest := by
  have hnew : n ∉ seen := fun hmem => Nat.lt_irrefl n (hs n hmem)
  have hfield : fieldOf (.unsigned n) = .ok (some n) := by
    simp only [fieldOf]
    rw [if_pos (by omega)]
  show fill r seen (.unsigned n :: x :: rest) = _
  rw [fill, hfield]
  show (if seen.contains n = true then _ else _) = _
  rw [if_neg (by simpa using hnew)]

theorem forall_lt_cons {n : Nat} {seen : List Nat} (hs : ∀ k ∈ seen, k < n) : ∀ k ∈ n :: seen, k < n + 1 := by
  intro k hk
  rcases List.mem_cons.mp hk with rfl | hk
  · omega
  · exact Nat.lt_succ_of_lt (hs k hk)

/-- A scalar field that fits, or was left out for what the record has already. -/
theorem fill_scalar {n : Nat} (hn : 1 ≤ n ∧ n ≤ 4) {seen : List Nat} (hs : ∀ k ∈ seen, k < n) (omitted : Bool)
    {x : Item} {r s : Record} (hset : omitted = false → setScalar n x r = .ok s) (hsame : omitted = true → s = r)
    (rest : List Item) :
    ∃ seen', (∀ k ∈ seen', k < n + 1) ∧ fill r seen (field n omitted x ++ rest) = fill s seen' rest := by
  cases omitted with
  | true =>
    rw [hsame rfl]
    exact ⟨seen, fun k hk => Nat.lt_succ_of_lt (hs k hk), rfl⟩
  | false =>
    refine ⟨n :: seen, forall_lt_cons hs, ?_⟩
    rw [fill_written (by omega) hs, if_neg (by omega), hset rfl]
    rfl

/-! ## Scalar fields -/

section

variable (kind : UInt8) (int : Int64) (double : Double) (text : Text) (list : List Record)

theorem setScalar_kind (k : UInt8) :
    setScalar 1 (.unsigned k.toNat) (.mk kind int double text list) = .ok (.mk k int double text list) := by
  have hk := k.toNat_lt
  have hwhole : whole 0 255 kind.toNat (.whole k.toNat) = .ok (k.toNat : Int) := if_pos (by omega)
  simp only [setScalar, content]
  show (whole 0 255 kind.toNat (.whole k.toNat) >>= _) = _
  rw [hwhole]
  show Except.ok (Record.mk (k.toNat : Int).toNat.toUInt8 int double text list) = _
  simp

theorem content_ofInt (n : Int64) : content (.ofInt n.toInt) = .ok (.whole n.toInt) := by
  have hlow := n.le_toInt
  unfold Item.ofInt
  split
  · have hback : -1 - ((-1 - n.toInt).toNat : Int) = n.toInt := by omega
    rw [content, if_pos (by omega), hback]
  · have hback : ((n.toInt.toNat : Nat) : Int) = n.toInt := by omega
    rw [content, hback]

theorem setScalar_int (n : Int64) :
    setScalar 2 (.ofInt n.toInt) (.mk kind int double text list) = .ok (.mk kind n double text list) := by
  have hlow := n.le_toInt
  have hhigh := n.toInt_lt
  have hwhole : whole (-2 ^ 63) (2 ^ 63 - 1) int.toInt (.whole n.toInt) = .ok n.toInt := if_pos (by omega)
  simp only [setScalar, content_ofInt]
  show (whole (-2 ^ 63) (2 ^ 63 - 1) int.toInt (.whole n.toInt) >>= _) = _
  rw [hwhole]
  show Except.ok (Record.mk kind (Int64.ofInt n.toInt) double text list) = _
  rw [Int64.ofInt_toInt]

theorem setScalar_double (x : Double) :
    setScalar 3 (.float x) (.mk kind int double text list) = .ok (.mk kind int x text list) := rfl

theorem setScalar_text {t : Text} (ht : Text.Utf8.isValid t = true) :
    setScalar 4 (.text [t]) (.mk kind int double text list) = .ok (.mk kind int double t list) := by
  have hutf8 : utf8 [t] = .ok t := by simp [utf8, ht]
  simp only [setScalar, content, hutf8]
  rfl

theorem setScalar_text_invalid {t : Text} (ht : ¬ Text.Utf8.isValid t = true) :
    setScalar 4 (.text [t]) (.mk kind int double text list) = .error .notUtf8 := by
  have hutf8 : utf8 [t] = .error .notUtf8 := by simp [utf8, ht]
  simp only [setScalar, content, hutf8]
  rfl

end

/-! ## Records -/

/-- The fields of a record before its text. -/
theorem fill_numbers (kind : UInt8) (int : Int64) (double : Double) (noInt noDouble : Bool) (rest : List Item) :
    ∃ seen, (∀ k ∈ seen, k < 4) ∧
      fill blank [] (field 1 false (.unsigned kind.toNat) ++ (field 2 noInt (.ofInt int.toInt) ++
        (field 3 noDouble (.float double) ++ rest))) =
      fill (.mk kind (if noInt then 0 else int) (if noDouble then .zero else double) [] []) seen rest := by
  have hnone : ∀ k ∈ ([] : List Nat), k < 1 := by simp
  obtain ⟨seen₁, hs₁, h₁⟩ := fill_scalar (n := 1) (by decide) hnone false
    (fun _ => setScalar_kind 0 0 .zero [] [] kind) (fun h => by cases h)
    (field 2 noInt (.ofInt int.toInt) ++ (field 3 noDouble (.float double) ++ rest))
  obtain ⟨seen₂, hs₂, h₂⟩ := fill_scalar (n := 2) (by decide) hs₁ noInt
    (s := .mk kind (if noInt then 0 else int) .zero [] [])
    (fun h => by rw [h]; exact setScalar_int kind 0 .zero [] [] int) (fun h => by rw [h]; rfl)
    (field 3 noDouble (.float double) ++ rest)
  obtain ⟨seen₃, hs₃, h₃⟩ := fill_scalar (n := 3) (by decide) hs₂ noDouble
    (s := .mk kind (if noInt then 0 else int) (if noDouble then .zero else double) [] [])
    (fun h => by rw [h]; exact setScalar_double kind _ .zero [] [] double) (fun h => by rw [h]; rfl) rest
  exact ⟨seen₃, hs₃, h₁.trans (h₂.trans h₃)⟩

/-- The text of a record after other fields. -/
theorem fill_text (kind : UInt8) (int : Int64) (double : Double) {seen : List Nat} (hs : ∀ k ∈ seen, k < 4) (text : Text)
    (noText : Bool) (rest : List Item) {good : Prop} {r : Record}
    (h : ∀ seen', (∀ k ∈ seen', k < 5) →
      OkIff (fill (.mk kind int double (if noText then [] else text) []) seen' rest) good r) :
    OkIff (fill (.mk kind int double [] []) seen (field 4 noText (.text [text]) ++ rest))
      ((noText = true ∨ Text.Utf8.isValid text = true) ∧ good) r := by
  by_cases ht : noText = true ∨ Text.Utf8.isValid text = true
  · obtain ⟨seen', hs', h'⟩ := fill_scalar (n := 4) (by decide) hs noText
      (s := .mk kind int double (if noText then [] else text) [])
      (fun h => by
        rw [h]
        exact setScalar_text kind int double [] [] (ht.resolve_left (by simp [h])))
      (fun h => by rw [h]; rfl) rest
    exact (h seen' hs').congr h' (and_iff_right ht)
  · obtain ⟨hno, hbad⟩ := not_or.mp ht
    refine .of_error (e := Flaw.notUtf8) ?_ fun hg => ht hg.1
    rw [Bool.eq_false_of_not_eq_true hno, fill_written (by decide) hs, if_neg (by decide),
      setScalar_text_invalid kind int double [] [] hbad]
    rfl

/-- The list of a record after other fields. -/
theorem fill_list (kind : UInt8) (int : Int64) (double : Double) (text : Text) {seen : List Nat} (hs : ∀ k ∈ seen, k < 5)
    {items : List Item} (noList : Bool) {good : Prop} {list : List Record} (h : OkIff (ofItems items) good list) :
    OkIff (fill (.mk kind int double text []) seen (field 5 noList (.array items))) (noList = true ∨ good)
      (.mk kind int double text (if noList then [] else list)) := by
  cases noList with
  | true =>
    refine .of_ok ?_ (.inl rfl)
    rw [fill.eq_def]
    rfl
  | false =>
    have hfill := fill_written (n := 5) (by decide) hs (.array items) (.mk kind int double text []) []
    rw [if_pos rfl, List.append_nil, listOfItem] at hfill
    have hlist : OkIff (ofItems items >>= fun rs => fill ((mk kind int double text []).setList rs) (5 :: seen) [])
        (good ∧ True) (mk kind int double text list) :=
      h.bind fun _ => .of_ok (by rw [fill.eq_def]; rfl) trivial
    exact hlist.congr hfill (by simp)

theorem ofItems_eq (items : List Item) : ofItems items = items.mapM ofItem := by
  induction items with
  | nil => rfl
  | cons x xs ih =>
    rw [ofItems, List.mapM_cons, ih]
    rfl

theorem ofItem_fills (kind : UInt8) (int : Int64) (double : Double) (text : Text) (items : List Item)
    (noInt noDouble noText noList : Bool) {good : Prop} {list : List Record} (h : OkIff (items.mapM ofItem) good list) :
    OkIff (ofItem (.map (entries kind int double text items noInt noDouble noText noList)))
      ((noText = true ∨ Text.Utf8.isValid text = true) ∧ (noList = true ∨ good))
      (.mk kind (if noInt then 0 else int) (if noDouble then .zero else double) (if noText then [] else text)
        (if noList then [] else list)) := by
  obtain ⟨seen, hs, hnumbers⟩ := fill_numbers kind int double noInt noDouble
    (field 4 noText (.text [text]) ++ field 5 noList (.array items))
  rw [ofItem, entries, List.append_assoc, List.append_assoc, List.append_assoc, hnumbers]
  exact fill_text kind _ _ hs text noText _ fun seen' hs' =>
    fill_list kind _ _ _ hs' noList (ofItems_eq items ▸ h)

/-! ## Sources -/

theorem utf8_from {chunks : List Text} {t : Text} (h : utf8 chunks = .ok t) :
    chunks.all Text.Utf8.isValid = true ∧ t = chunks.flatten := by
  unfold utf8 at h
  split at h
  next hvalid =>
    cases h
    exact ⟨hvalid, rfl⟩
  · cases h

theorem largeNumber_ne_text {number : Nat} {x : Item} {t : Text} : largeNumber number x ≠ .ok (.text t) := by
  unfold largeNumber
  intro h
  split at h
  · dsimp only at h
    split at h <;> cases h
  · dsimp only at h
    split at h <;> cases h
  · cases h

/-- A text that fills a field is a text in UTF-8, under any tags. -/
theorem content_from : ∀ {x : Item} {t : Text}, content x = .ok (.text t) →
    ∃ chunks, x.bare = .text chunks ∧ chunks.all Text.Utf8.isValid = true ∧ t = chunks.flatten
  | .text chunks, t, h => by
    rw [content] at h
    obtain ⟨t', ht', h⟩ := bind_eq_ok h
    cases h
    exact ⟨chunks, rfl, utf8_from ht'⟩
  | .tag number x, t, h => by
    rw [content] at h
    split at h
    · exact content_from (x := x) h
    · obtain ⟨-, -, h⟩ := bind_eq_ok h
      split at h
      · exact (largeNumber_ne_text h).elim
      · exact content_from (x := x) h
  | .negative n, t, h => by
    rw [content] at h
    split at h <;> cases h
  | .simple n, t, h => by
    rw [content] at h
    split at h
    · cases h
    · split at h <;> cases h

theorem setScalar_from {number : Nat} {x : Item} {entries : List Item} (hx : x ∈ entries) {r r' : Record}
    (hr : cbor.FilledFrom entries r) (h : setScalar number x r = .ok r') : cbor.FilledFrom entries r' := by
  obtain ⟨kind, int, double, text, list⟩ := r
  unfold setScalar at h
  obtain ⟨c, hc, h⟩ := bind_eq_ok h
  split at h
  · obtain ⟨k, -, h⟩ := bind_eq_ok h
    cases h
    exact hr
  · obtain ⟨k, -, h⟩ := bind_eq_ok h
    cases h
    exact hr
  · obtain ⟨y, -, h⟩ := bind_eq_ok h
    cases h
    exact hr
  · obtain ⟨t, ht, h⟩ := bind_eq_ok h
    cases h
    refine ⟨?_, hr.2⟩
    unfold string at ht
    split at ht
    · cases ht
      exact hr.1
    · cases ht
      exact .inr ⟨x, hx, content_from hc⟩
    · cases ht

/-- Records that fill a list are those of an array, under any tags, element by element. -/
theorem listOfItem_from : ∀ {x : Item} {rs : List Record}, listOfItem x = .ok rs →
    rs = [] ∨ ∃ items, x.bare = .array items ∧ items.mapM ofItem = .ok rs
  | .array items, rs, h => by
    rw [listOfItem, ofItems_eq] at h
    exact .inr ⟨items, rfl, h⟩
  | .tag number x, rs, h => by
    rw [listOfItem] at h
    split at h
    · exact listOfItem_from (x := x) h
    · obtain ⟨-, -, h⟩ := bind_eq_ok h
      split at h
      · cases h
      · exact listOfItem_from (x := x) h
  | .simple n, rs, h => by
    rw [listOfItem] at h
    split at h
    · cases h
      exact .inl rfl
    · cases h

/-- Filling fields from some entries of a map. -/
theorem fill_from {entries : List Item} : ∀ (part : List Item), (∀ x ∈ part, x ∈ entries) →
    ∀ (r : Record) (seen : List Nat) (r' : Record), cbor.FilledFrom entries r → fill r seen part = .ok r' →
      cbor.FilledFrom entries r'
  | k :: x :: rest, hpart, r, seen, r', hr, h => by
    have hx : x ∈ entries := hpart x (by simp)
    have hrest : ∀ y ∈ rest, y ∈ entries := fun y hy => hpart y (by simp [hy])
    rw [fill] at h
    obtain ⟨field, -, h⟩ := bind_eq_ok h
    split at h
    · split at h
      · exact fill_from rest hrest _ _ _ hr h
      split at h
      · obtain ⟨rs, hrs, h⟩ := bind_eq_ok h
        obtain ⟨kind, int, double, text, list⟩ := r
        have hset : cbor.FilledFrom entries (.mk kind int double text rs) :=
          ⟨hr.1, (listOfItem_from hrs).imp id fun hitems => ⟨x, hx, hitems⟩⟩
        exact fill_from rest hrest _ _ _ hset h
      · obtain ⟨r₁, hr₁, h⟩ := bind_eq_ok h
        exact fill_from rest hrest _ _ _ (setScalar_from hx hr hr₁) h
    · exact fill_from rest hrest _ _ _ hr h
  | [], _, r, seen, r', hr, h => by
    cases h
    exact hr
  | [_], _, r, seen, r', hr, h => by
    cases h
    exact hr

theorem ofItem_from : ∀ {x : Item} {r : Record}, ofItem x = .ok r →
    (∃ n, x.bare = .simple n) ∧ r = .blank ∨ ∃ entries, x.bare = .map entries ∧ cbor.FilledFrom entries r
  | .map entries, r, h => by
    rw [ofItem] at h
    have hblank : cbor.FilledFrom entries .blank := ⟨.inl rfl, .inl rfl⟩
    exact .inr ⟨entries, rfl, fill_from entries (fun _ hx => hx) _ _ _ hblank h⟩
  | .tag number x, r, h => by
    rw [ofItem] at h
    split at h
    · exact ofItem_from (x := x) h
    · obtain ⟨-, -, h⟩ := bind_eq_ok h
      split at h
      · cases h
      · exact ofItem_from (x := x) h
  | .simple n, r, h => by
    rw [ofItem] at h
    split at h
    · cases h
      exact .inl ⟨⟨n, rfl⟩, rfl⟩
    · cases h

end Record

/-- The codec that the engine runs on is as documented. -/
theorem cbor_documented : cbor.Documented where
  omits_empty _ := rfl
  reads_back _ hx := ofBytes_encode hx
  keeps_limits _ _ h := ofBytes_fits h
  fills kind int double text items noInt noDouble noText noList _ _ h :=
    Record.ofItem_fills kind int double text items noInt noDouble noText noList h
  elementwise items := (Record.listOfItem.eq_1 items).trans (Record.ofItems_eq items)
  null_or_map _ _ h := Record.ofItem_from h

end BlockEngine.Wire
