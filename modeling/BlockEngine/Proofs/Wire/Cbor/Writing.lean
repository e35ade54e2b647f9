/-
  BlockEngine.Proofs.Wire.Cbor.Writing — reading back the items that were written.

  What the writer makes of numbers, texts, arrays and maps (`Plain`) begins with a head that is read
  back (`readHead_head`), so an item is read off the front of its bytes and what follows is left. It
  is read if it nests no deeper and holds no more than the reader takes, and only then
  (`readItem_encode`). A floating-point number comes back as it was, any NaN as the one without a
  payload.
-/

import BlockEngine.Proofs.Double.Exact
import BlockEngine.Proofs.Wire.Documented
import BlockEngine.Wire.Cbor.Reading
import BlockEngine.Wire.Cbor.Writing
import Mathlib.Tactic.IntervalCases

namespace BlockEngine.Wire

/-! ## Numbers in bytes -/

theorem length_bigEndian (n x : Nat) : (bigEndian n x).length = n := by
  induction n generalizing x with
  | zero => rfl
  | succ n ih => simp [bigEndian, ih]

theorem numberOf_append (t : Text) (b : UInt8) : numberOf (t ++ [b]) = numberOf t * 256 + b.toNat := by
  simp [numberOf, List.foldl_append]

theorem numberOf_bigEndian (n x : Nat) : numberOf (bigEndian n x) = x % 256 ^ n := by
  induction n generalizing x with
  | zero => simp [bigEndian, numberOf, Nat.mod_one]
  | succ n ih =>
    have hbyte : ((x % 256).toUInt8).toNat = x % 256 := by simp
    rw [bigEndian, numberOf_append, ih, hbyte, Nat.pow_succ, Nat.mul_comm (256 ^ n) 256, Nat.mod_mul]
    omega

theorem readBytes_append {n : Nat} {front : Text} (h : front.length = n) (rest : Text) :
    readBytes n (front ++ rest) = .ok (front, rest) := by
  subst h
  simp [readBytes]

/-! ## Heads -/

/-- A head with its number in some bytes. -/
theorem readHead_bytes {major k n : Nat} (hmajor : major < 8) (hshort : k = 0 → major ≠ 7) (hk : k < 4)
    (hn : n < 256 ^ (2 ^ k)) (rest : Text) :
    readHead ((major * 32 + (24 + k)).toUInt8 :: (bigEndian (2 ^ k) n ++ rest)) = .ok (⟨major, 24 + k, n⟩, rest) := by
  have hbyte : ((major * 32 + (24 + k)).toUInt8).toNat = major * 32 + (24 + k) := by
    simp
    omega
  have hdiv : (major * 32 + (24 + k)) / 32 = major := by omega
  have hmod : (major * 32 + (24 + k)) % 32 = 24 + k := by omega
  unfold readHead
  dsimp only
  rw [hbyte, hdiv, hmod, if_neg (by omega), if_pos (by omega), Nat.add_sub_cancel_left,
    readBytes_append (length_bigEndian _ n)]
  show (if 24 + k = 24 ∧ major = 7 ∧ _ then _ else _ : Except Flaw (Head × Text)) = _
  rw [if_neg (fun h => hshort (by omega) h.2.1), numberOf_bigEndian, Nat.mod_eq_of_lt hn]

/-- A head is read back with its number. -/
theorem readHead_head (major : Nat) {n : Nat} (hmajor : major < 7) (hn : n < 2 ^ 64) (rest : Text) :
    ∃ info, info < 28 ∧ readHead (head major n ++ rest) = .ok (⟨major, info, n⟩, rest) := by
  unfold head
  split
  next h =>
    refine ⟨n, by omega, ?_⟩
    have hbyte : ((major * 32 + n).toUInt8).toNat = major * 32 + n := by
      simp
      omega
    have hdiv : (major * 32 + n) / 32 = major := by omega
    have hmod : (major * 32 + n) % 32 = n := by omega
    show readHead ((major * 32 + n).toUInt8 :: rest) = _
    unfold readHead
    dsimp only
    rw [hbyte, hdiv, hmod, if_pos h]
  split
  · exact ⟨24, by omega, readHead_bytes (k := 0) (by omega) (by omega) (by omega) (by omega) rest⟩
  split
  · exact ⟨25, by omega, readHead_bytes (k := 1) (by omega) (by omega) (by omega) (by omega) rest⟩
  split
  · exact ⟨26, by omega, readHead_bytes (k := 2) (by omega) (by omega) (by omega) (by omega) rest⟩
  · exact ⟨27, by omega, readHead_bytes (k := 3) (by omega) (by omega) (by omega) (by omega) rest⟩

theorem head_ne_nil (major n : Nat) : head major n ≠ [] := by
  unfold head
  repeat' split
  all_goals simp

/-! ## Items -/

theorem encode_ne_nil {x : Item} (h : x.Plain) : x.encode ≠ [] := by
  cases x with
  | float x =>
    simp only [Item.encode, floatBytes]
    repeat' split
    all_goals simp
  | unsigned n => simp [Item.encode, head_ne_nil]
  | negative n => simp [Item.encode, head_ne_nil]
  | text chunks => simp [Item.encode, head_ne_nil]
  | array items => simp [Item.encode, head_ne_nil]
  | map entries => simp [Item.encode, head_ne_nil]
  | _ => exact absurd h (by simp [Item.Plain])

/-- A floating-point number of any format. -/
theorem readItem_format (fuel depth : Nat) {k n : Nat} (hk : k ≠ 0 ∧ k < 4) (hn : n < 256 ^ (2 ^ k)) (rest : Text) :
    readItem (fuel + 1) depth ((7 * 32 + (24 + k)).toUInt8 :: (bigEndian (2 ^ k) n ++ rest)) =
      .ok (match 24 + k with
        | 25 => .float (.widen .half n)
        | 26 => .float (.widen .single n)
        | 27 => .float ⟨n.toUInt64⟩
        | _ => .simple n, rest) := by
  unfold readItem
  rw [readHead_bytes (by omega) (by omega) (by omega) hn]
  obtain ⟨h0, h4⟩ := hk
  interval_cases k
  · exact absurd rfl h0
  · rfl
  · rfl
  · rfl

/-- A floating-point number is read back, any NaN as the canonical one. -/
theorem readItem_float (fuel depth : Nat) (x : Double) (rest : Text) :
    readItem (fuel + 1) depth (floatBytes x ++ rest) = .ok (.float (canonical x), rest) := by
  unfold floatBytes canonical
  split
  next hnan =>
    have hbytes : ([0xF9, 0x7E, 0x00] : Text) = (7 * 32 + (24 + 1)).toUInt8 :: bigEndian (2 ^ 1) 0x7E00 := by decide
    have hwiden : Double.widen .half 0x7E00 = .nan := by decide
    rw [hbytes, List.cons_append, readItem_format fuel depth (by decide) (by decide)]
    exact congrArg (fun y => Except.ok (Item.float y, rest)) hwiden
  next hnan =>
  cases hhalf : x.narrow? .half with
  | some bits =>
    have hlt : bits < 2 * Double.Format.half.sign := Double.narrow_lt hhalf
    have hwiden : Double.widen .half bits = x := Double.widen_narrow (by decide) (by decide) hhalf
    exact (readItem_format fuel depth (k := 1) (by decide) hlt rest).trans
      (congrArg (fun y => Except.ok (Item.float y, rest)) hwiden)
  | none =>
    dsimp only
    cases hsingle : x.narrow? .single with
    | some bits =>
      have hlt : bits < 2 * Double.Format.single.sign := Double.narrow_lt hsingle
      have hwiden : Double.widen .single bits = x := Double.widen_narrow (by decide) (by decide) hsingle
      exact (readItem_format fuel depth (k := 2) (by decide) hlt rest).trans
        (congrArg (fun y => Except.ok (Item.float y, rest)) hwiden)
    | none =>
      refine (readItem_format fuel depth (k := 3) (n := x.bits.toNat) (by decide) x.bits.toNat_lt rest).trans ?_
      simp

theorem Head.isOpen_of_lt {h : Head} (hinfo : h.info < 28) : h.isOpen = false := by
  simp only [Head.isOpen, beq_eq_false_iff_ne]
  omega

/-- Elements of a known number, as many as the bytes hold. -/
theorem readElements_okIff {read : Reader Item} {h : Head} (width : Nat) {xs ys : List Item} {good : Prop} {t rest : Text}
    (hmany : OkIff (readMany read xs.length [] t) good (ys, rest)) (hinfo : h.info < 28) (hvalue : h.value < 2 ^ 63)
    (hwidth : width * h.value = xs.length) :
    OkIff (readElements read width h t) (¬ maxElements < h.value ∧ good) (ys, rest) := by
  unfold readElements
  rw [if_neg (by simp [Head.isOpen_of_lt hinfo]), if_neg (by omega), hwidth]
  exact .guarded _ fun _ => hmany

mutual

/-- An item is read off the front of its bytes if it nests no deeper and holds no more than the reader
    takes. -/
theorem readItem_encode : ∀ (x : Item), x.Plain → ∀ (fuel depth : Nat) (rest : Text), depth ≤ maxDepth →
    (x.encode ++ rest).length < fuel →
    OkIff (readItem fuel depth (x.encode ++ rest)) (x.height + depth ≤ maxDepth ∧ x.Small) (x.settled, rest)
  | .unsigned n, hx, fuel + 1, depth, rest, hd, _ => by
    obtain ⟨info, -, hhead⟩ := readHead_head 0 (by decide) hx rest
    refine .of_ok ?_ ⟨by simpa [Item.height] using hd, trivial⟩
    rw [readItem, Item.encode, hhead]
    rfl
  | .negative n, hx, fuel + 1, depth, rest, hd, _ => by
    obtain ⟨info, -, hhead⟩ := readHead_head 1 (by decide) hx rest
    refine .of_ok ?_ ⟨by simpa [Item.height] using hd, trivial⟩
    rw [readItem, Item.encode, hhead]
    rfl
  | .text [t], hx, fuel + 1, depth, rest, hd, _ => by
    have hlt : t.length < 2 ^ 63 := hx
    obtain ⟨info, hinfo, hhead⟩ := readHead_head 3 (n := t.length) (by decide) (by omega) (t ++ rest)
    have hclosed : (⟨3, info, t.length⟩ : Head).isOpen = false := Head.isOpen_of_lt hinfo
    have hchunks : readChunks ⟨3, info, t.length⟩ (t ++ rest) = .ok ([t], rest) := by
      unfold readChunks readString
      rw [if_neg (by simp [hclosed]), if_neg (by simpa using hlt), readBytes_append rfl]
      rfl
    refine .of_ok ?_ ⟨by simpa [Item.height] using hd, trivial⟩
    rw [readItem, Item.encode, List.flatten_singleton, List.append_assoc, hhead]
    show (readChunks _ _ >>= _) = _
    rw [hchunks]
    rfl
  | .array items, hx, fuel + 1, depth, rest, hd, hfuel => by
    obtain ⟨hlt, hitems⟩ := hx
    obtain ⟨info, hinfo, hhead⟩ :=
      readHead_head 4 (n := items.length) (by decide) (by omega) (Item.encodeAll items ++ rest)
    have hpos := List.length_pos_iff.mpr (head_ne_nil 4 items.length)
    rw [Item.encode, List.append_assoc] at hfuel ⊢
    rw [List.length_append] at hfuel
    have hbelow := OkIff.guarded (c := maxDepth < depth + 1) Flaw.tooDeep fun hd =>
      (readElements_okIff (h := ⟨4, info, items.length⟩) 1
        (readMany_encodeAll items hitems fuel (depth + 1) [] rest (by omega) (by omega))
        hinfo hlt (Nat.one_mul _)).map fun (xs, t) => (Item.array xs, t)
    refine hbelow.congr ?_ ?_
    · rw [readItem, hhead]
      rfl
    · simp only [Item.height, Item.Small]
      constructor
      · exact fun hg => ⟨by omega, by omega, by omega, hg.2.2⟩
      · exact fun hg => ⟨by omega, by omega, hg.2.2.2⟩
  | .map entries, hx, fuel + 1, depth, rest, hd, hfuel => by
    obtain ⟨heven, hlt, hentries⟩ := hx
    obtain ⟨info, hinfo, hhead⟩ :=
      readHead_head 5 (n := entries.length / 2) (by decide) (by omega) (Item.encodeAll entries ++ rest)
    have hpos := List.length_pos_iff.mpr (head_ne_nil 5 (entries.length / 2))
    have hwidth : 2 * (entries.length / 2) = entries.length := by omega
    rw [Item.encode, List.append_assoc] at hfuel ⊢
    rw [List.length_append] at hfuel
    have hbelow := OkIff.guarded (c := maxDepth < depth + 1) Flaw.tooDeep fun hd =>
      (readElements_okIff (h := ⟨5, info, entries.length / 2⟩) 2
        (readMany_encodeAll entries hentries fuel (depth + 1) [] rest (by omega) (by omega))
        hinfo (Nat.lt_of_le_of_lt (Nat.div_le_self _ 2) hlt) hwidth).map fun (xs, t) => (Item.map xs, t)
    refine hbelow.congr ?_ ?_
    · rw [readItem, hhead]
      rfl
    · simp only [Item.height, Item.Small]
      constructor
      · exact fun hg => ⟨by omega, by omega, by omega, hg.2.2⟩
      · exact fun hg => ⟨by omega, by omega, hg.2.2.2⟩
  | .float x, _, fuel + 1, depth, rest, hd, _ =>
    .of_ok (readItem_float fuel depth x rest) ⟨by simpa [Item.height] using hd, trivial⟩

theorem readMany_encodeAll : ∀ (xs : List Item), PlainAll xs → ∀ (fuel depth : Nat) (done : List Item) (rest : Text),
    depth ≤ maxDepth → (Item.encodeAll xs ++ rest).length < fuel →
    OkIff (readMany (readItem fuel depth) xs.length done (Item.encodeAll xs ++ rest))
      (heightAll xs + depth ≤ maxDepth ∧ SmallAll xs) (done.reverse ++ settledAll xs, rest)
  | [], _, fuel, depth, done, rest, hd, _ => by
    refine .of_ok ?_ ⟨by simpa [heightAll] using hd, trivial⟩
    simp [readMany, Item.encodeAll, settledAll]
  | x :: xs, hx, fuel, depth, done, rest, hd, hfuel => by
    rw [Item.encodeAll, List.append_assoc] at hfuel ⊢
    have hfirst := readItem_encode x hx.1 fuel depth (Item.encodeAll xs ++ rest) hd hfuel
    rw [List.length_append] at hfuel
    have hothers := readMany_encodeAll xs hx.2 fuel depth (x.settled :: done) rest hd (by omega)
    rw [List.reverse_cons, List.append_assoc, List.singleton_append] at hothers
    by_cases hgood : x.height + depth ≤ maxDepth ∧ x.Small
    · refine hothers.congr ?_ ?_
      · rw [List.length_cons, readMany, hfirst.ok hgood]
        rfl
      · simp only [heightAll, SmallAll]
        constructor
        · exact fun hg => ⟨by omega, hg.2.2⟩
        · exact fun hg => ⟨by omega, hgood.2, hg.2⟩
    · obtain ⟨f, hf⟩ := hfirst.error hgood
      refine .of_error (e := f) ?_ fun hg => hgood ⟨?_, hg.2.1⟩
      · rw [List.length_cons, readMany, hf]
        rfl
      · have := hg.1
        simp only [heightAll] at this
        omega

end

/-- The bytes of an item stand for it if it nests no deeper and holds no more than the reader takes. -/
theorem ofBytes_encode {x : Item} (hx : x.Plain) :
    OkIff (Item.ofBytes x.encode) (x.height ≤ maxDepth ∧ x.Small) x.settled := by
  have hread := readItem_encode x hx (x.encode.length + 1) 0 [] (Nat.zero_le _) (by simp)
  rw [List.append_nil] at hread
  have hne : x.encode.isEmpty = false := by simpa using encode_ne_nil hx
  unfold Item.ofBytes
  rw [if_neg (by simp [hne])]
  have hgood : x.height ≤ maxDepth ∧ x.Small ↔ (x.height + 0 ≤ maxDepth ∧ x.Small) ∧ True := by simp
  exact .congr (hread.bind fun _ => .of_ok rfl trivial) rfl hgood

end BlockEngine.Wire
