/-
  BlockEngine.Proofs.Wire.RoundTrip — sending values and results, and receiving them.

  Writing refuses exactly the values in which a control, a chain or the omitted value lies. What
  is written is read back exactly if all texts in it are UTF-8 and it keeps to the reader's
  limits, and then it comes back with static scalars and lists that belong to the reader. All this
  holds with any library as documented (`round_trip_exactly`). Results are read like a list's
  elements: the array around them adds one level, which their own depth has room for because it
  is odd.
-/

import BlockEngine.Proofs.Wire.Cbor.Filling
import BlockEngine.Proofs.Wire.Values

namespace BlockEngine.Wire

/-- A value within the reader's limits. -/
structure Receivable (v : Value) : Prop where
  utf8 : v.Everywhere Value.Legible
  short : v.Everywhere (Value.Short 131072)
  shallow : v.levels ≤ 32

/-- What writing something and reading it back comes to. -/
structure RoundTrip {α : Type} (write : α → Except Error Text) (read : Text → Except Error α) (x : α)
    (hidden receivable : Prop) (received : α) : Prop where
  /-- Exactly what only exists inside a run is refused. -/
  refused_iff : (∃ e, write x = .error e) ↔ hidden
  /-- That is said to be the reason. -/
  refusal : ∀ e, write x = .error e → ∃ result what, e = .notEncodable result what
  read_iff : ∀ t, write x = .ok t → ((∃ y, read t = .ok y) ↔ receivable)
  read_eq : ∀ t, write x = .ok t → ∀ y, read t = .ok y → y = received

/-! ## Conversions -/

section

variable {α β : Type} {f : α → Except Text β}

theorem eachResult_error {xs : List α} {i : Nat} {e : Error} (h : eachResult f i xs = .error e) :
    ∃ result what, e = .notEncodable result what := by
  induction xs generalizing i with
  | nil => cases h
  | cons x xs ih =>
    rw [eachResult] at h
    cases hx : f x with
    | error what =>
      rw [hx] at h
      cases h
      exact ⟨some i, what, rfl⟩
    | ok y =>
      rw [hx] at h
      cases hxs : eachResult f (i + 1) xs with
      | error e' =>
        simp only [hxs] at h
        cases h
        exact ih hxs
      | ok ys =>
        simp only [hxs] at h
        cases h

theorem eachResult_okIff {good : α → Prop} {g : α → β} (h : ∀ x, OkIff (f x) (good x) (g x)) (xs : List α) (i : Nat) :
    OkIff (eachResult f i xs) (∀ x ∈ xs, good x) (xs.map g) := by
  induction xs generalizing i with
  | nil => exact .of_ok rfl (by simp)
  | cons x xs ih =>
    by_cases hx : good x
    · have hothers := (ih (i + 1)).map fun ys => g x :: ys
      refine hothers.congr ?_ ?_
      · rw [eachResult, (h x).ok hx]
      · rw [List.forall_mem_cons, and_iff_right hx]
    · obtain ⟨what, hwhat⟩ := (h x).error hx
      refine .of_error (e := .notEncodable (some i) what) ?_ fun hall => hx (hall x List.mem_cons_self)
      rw [eachResult, hwhat]

end

/-! ## Values -/

section

variable (k : Codec)

theorem encode_okIff (v : Value) :
    OkIff (k.encode v) (v.Everywhere fun u => ¬ u.Hidden) (k.write (k.pack (record v))) := by
  have h := ofValue_okIff v
  constructor
  · intro hv
    rw [Codec.encode, h.ok hv]
  · intro hv
    obtain ⟨what, hwhat⟩ := h.error hv
    exact ⟨.notEncodable none what, by rw [Codec.encode, hwhat]⟩

theorem encode_error {v : Value} {e : Error} (h : k.encode v = .error e) : ∃ result what, e = .notEncodable result what := by
  rw [Codec.encode] at h
  split at h
  · cases h
  · cases h
    exact ⟨none, _, rfl⟩

end

theorem decode_okIff {k : Codec} (hk : k.Documented) {v : Value} (hv : v.Everywhere fun u => ¬ u.Hidden)
    (hsized : v.Everywhere Value.Sized) :
    OkIff (k.decode (k.write (k.pack (record v)))) (Receivable v) v.received := by
  have hread := (hk.reads_back _ (record_plain v hsized)).bind fun _ => hk.unpack_toItem (record v)
  rw [record_height, record_small, record_utf8] at hread
  rw [hk.omits_empty]
  constructor
  · rintro ⟨hutf8, hshort, hshallow⟩
    rw [Codec.decode, hread.ok ⟨⟨hshallow, hshort⟩, hutf8⟩]
    dsimp only
    rw [toValue_record v hv]
  · intro hbad
    obtain ⟨f, hf⟩ := hread.error fun h => hbad ⟨h.2, h.1.2, h.1.1⟩
    exact ⟨.unreadable f, by rw [Codec.decode, hf]⟩

/-! ## Results -/

theorem encodeResults_okIff (k : Codec) (vs : List Value) :
    OkIff (k.encodeResults vs) (∀ v ∈ vs, v.Everywhere fun u => ¬ u.Hidden)
      (k.write (.array ((records vs).map k.pack))) := by
  have h := (eachResult_okIff ofValue_okIff vs 0).map fun rs => k.write (.array (rs.map k.pack))
  rw [← records_eq] at h
  exact h

/-- Results are converted like a list's elements. -/
theorem eachResult_toValue {rs : List Record} {vs : List Value} (h : Record.toValues rs = .ok vs) (i : Nat) :
    eachResult Record.toValue i rs = .ok vs := by
  induction rs generalizing vs i with
  | nil =>
    cases h
    rfl
  | cons r rs ih =>
    rw [Record.toValues] at h
    cases hr : r.toValue with
    | error what =>
      rw [hr] at h
      cases h
    | ok v =>
      cases hrs : Record.toValues rs with
      | error what =>
        rw [hr, hrs] at h
        cases h
      | ok ws =>
        rw [hr, hrs] at h
        cases h
        rw [eachResult, hr]
        dsimp only
        rw [ih hrs]
        rfl

/-- The array around results adds a level to an odd number of them. -/
theorem levelsAll_lt_depth (vs : List Value) : Value.levelsAll vs + 1 ≤ maxDepth ↔ ∀ v ∈ vs, v.levels ≤ 32 := by
  have hbelow : Value.levelsAll vs + 1 ≤ maxDepth ↔ ∀ v ∈ vs, v.levels ≤ 31 := by
    rw [← Value.levelsAll_le, maxDepth]
    omega
  rw [hbelow]
  refine forall₂_congr fun v _ => ?_
  have hodd := v.levels_odd
  omega

theorem encodeResults_error {k : Codec} {vs : List Value} {e : Error} (h : k.encodeResults vs = .error e) :
    ∃ result what, e = .notEncodable result what := by
  rw [Codec.encodeResults] at h
  cases hrs : eachResult Record.ofValue 0 vs with
  | error e' =>
    rw [hrs] at h
    cases h
    exact eachResult_error hrs
  | ok rs =>
    rw [hrs] at h
    cases h

theorem decodeResults_okIff {k : Codec} (hk : k.Documented) {vs : List Value}
    (hvs : ∀ v ∈ vs, v.Everywhere fun u => ¬ u.Hidden) (hlength : vs.length < 2 ^ 63)
    (hsized : ∀ v ∈ vs, v.Everywhere Value.Sized) :
    OkIff (k.decodeResults (k.write (.array ((records vs).map k.pack))))
      (vs.length ≤ 131072 ∧ ∀ v ∈ vs, Receivable v) (vs.map Value.received) := by
  have hcount : (Record.toItems (records vs)).length = vs.length := by rw [Record.length_toItems, length_records]
  have hplain : (Item.array (Record.toItems (records vs))).Plain := ⟨by rwa [hcount], records_plain vs hsized⟩
  have hlist : OkIff (k.unpackAll (Item.array (Record.toItems (records vs))).settled) (Record.Utf8List (records vs))
      (Record.settledList (records vs)) :=
    (hk.unpack_toItems (records vs)).congr (by rw [Item.settled, hk.elementwise]) Iff.rfl
  have hread := (hk.reads_back _ hplain).bind fun _ => hlist
  rw [Item.height, records_height, levelsAll_lt_depth, Item.Small, hcount, records_small, records_utf8] at hread
  rw [hk.pack_all]
  constructor
  · rintro ⟨hcount, hgood⟩
    rw [Codec.decodeResults, hread.ok ⟨⟨fun v hv => (hgood v hv).shallow, hcount, fun v hv => (hgood v hv).short⟩,
      fun v hv => (hgood v hv).utf8⟩]
    dsimp only
    rw [eachResult_toValue (toValues_records vs hvs), Value.receivedAll_eq]
  · intro hbad
    obtain ⟨f, hf⟩ := hread.error fun h => hbad ⟨h.1.2.1, fun v hv => ⟨h.2 v hv, h.1.2.2 v hv, h.1.1 v hv⟩⟩
    exact ⟨.unreadable f, by rw [Codec.decodeResults, hf]⟩

/-! ## Round trips -/

theorem not_everywhere_shown (v : Value) :
    ¬ (v.Everywhere fun u => ¬ u.Hidden) ↔ ∃ u : Value, u.Within v ∧ u.Hidden := by
  simp [Value.Everywhere]

/-- What is refused and what is read back, put together. -/
theorem RoundTrip.of {α : Type} {write : α → Except Error Text} {read : Text → Except Error α} {x received : α}
    {shown hidden receivable : Prop} {bytes : Text} (hhidden : ¬ shown ↔ hidden) (hwrite : OkIff (write x) shown bytes)
    (hrefusal : ∀ e, write x = .error e → ∃ result what, e = .notEncodable result what)
    (hread : shown → OkIff (read bytes) receivable received) : RoundTrip write read x hidden receivable received where
  refused_iff := by
    rw [← hhidden]
    constructor
    · rintro ⟨e, he⟩ hshown
      rw [hwrite.ok hshown] at he
      cases he
    · exact hwrite.error
  refusal := hrefusal
  read_iff := by
    intro t ht
    rw [hwrite.eq_of_ok ht]
    exact (hread (hwrite.isOk_iff.mp ⟨t, ht⟩)).isOk_iff
  read_eq := by
    intro t ht y hy
    rw [hwrite.eq_of_ok ht] at hy
    exact (hread (hwrite.isOk_iff.mp ⟨t, ht⟩)).eq_of_ok hy

theorem RoundTrip.comes_back {α : Type} {write : α → Except Error Text} {read : Text → Except Error α} {x received : α}
    {hidden receivable : Prop} (h : RoundTrip write read x hidden receivable received) (hshown : ¬ hidden)
    (hgood : receivable) : (write x >>= read) = .ok received := by
  cases ht : write x with
  | error e => exact (hshown (h.refused_iff.mp ⟨e, ht⟩)).elim
  | ok t =>
    obtain ⟨y, hy⟩ := (h.read_iff t ht).mpr hgood
    show read t = .ok received
    rw [hy, h.read_eq t ht y hy]

/-- Values and results survive the way to another process exactly if nothing hidden lies in them, their
    texts are UTF-8 and they keep to the reader's limits, with any library as documented; lengths of texts and
    lists have 63 bits. -/
theorem round_trip_exactly {k : Codec} (hk : k.Documented) :
    (∀ v : Value, v.Everywhere Value.Sized →
      RoundTrip k.encode k.decode v (∃ u : Value, u.Within v ∧ u.Hidden) (Receivable v) v.received) ∧
    ∀ vs : List Value, vs.length < 2 ^ 63 → (∀ v ∈ vs, v.Everywhere Value.Sized) →
      RoundTrip k.encodeResults k.decodeResults vs (∃ v ∈ vs, ∃ u : Value, u.Within v ∧ u.Hidden)
        (vs.length ≤ 131072 ∧ ∀ v ∈ vs, Receivable v) (vs.map Value.received) := by
  constructor
  · intro v hsized
    exact .of (not_everywhere_shown v) (encode_okIff k v) (fun e he => encode_error k he) fun hv =>
      decode_okIff hk hv hsized
  · intro vs hlength hsized
    refine .of ?_ (encodeResults_okIff k vs) (fun e he => encodeResults_error he)
      fun hvs => decodeResults_okIff hk hvs hlength hsized
    simp only [not_forall, not_everywhere_shown, exists_prop]

/-- A list of the engine's that holds a negative zero, an empty list and a text, by itself and as a result. -/
theorem round_trip_exactly_managed :
    ∃ v w : Value, v = .list .managed 7 [.ofDouble ⟨0x8000000000000000⟩, .list .managed 8 [], .ofText [0x68, 0x69]] ∧
      w = .list .unmanaged 0 [.ofDouble .zero, .list .unmanaged 0 [], .ofText [0x68, 0x69]] ∧
      v.Everywhere Value.Sized ∧ (encode v >>= decode) = .ok w ∧ (encodeResults [v] >>= decodeResults) = .ok [w] := by
  refine ⟨_, _, rfl, rfl, ?_⟩
  generalize hv : Value.list .managed 7 [.ofDouble ⟨0x8000000000000000⟩, .list .managed 8 [], .ofText [0x68, 0x69]] = v
  have hsized : v.Everywhere Value.Sized := by
    simp [← hv, Value.everywhere_list, Value.everywhere_scalar, Value.Sized, Value.ofDouble, Value.ofText]
  have hshown : v.Everywhere fun u => ¬ u.Hidden := by
    simp [← hv, Value.everywhere_list, Value.everywhere_scalar, Value.ofDouble, Value.ofText, Value.Hidden, Value.kind,
      Scalar.kind]
  have hgood : Receivable v := by
    constructor
    · simp [← hv, Value.everywhere_list, Value.everywhere_scalar, Value.Legible, Value.ofDouble, Value.ofText,
        Text.Utf8.isValid, Text.Utf8.decode, Text.Utf8.next]
    · simp [← hv, Value.everywhere_list, Value.everywhere_scalar, Value.Short, Value.ofDouble, Value.ofText]
    · simp [← hv, Value.levels, Value.levelsAll, Value.ofDouble, Value.ofText]
  have hreceived : v.received = .list .unmanaged 0 [.ofDouble .zero, .list .unmanaged 0 [], .ofText [0x68, 0x69]] := by
    rw [← hv]
    rfl
  have hhidden : ¬ ∃ u : Value, u.Within v ∧ u.Hidden := not_exists.mpr fun u h => hshown u h.1 h.2
  have halone := ((round_trip_exactly cbor_documented).1 v hsized).comes_back hhidden hgood
  have hresult := ((round_trip_exactly cbor_documented).2 [v] (by simp) (by simpa using hsized)).comes_back
    (by simpa using hhidden) ⟨by simp, by simpa using hgood⟩
  rw [List.map_singleton] at hresult
  rw [hreceived] at halone hresult
  exact ⟨hsized, halone, hresult⟩

end BlockEngine.Wire
