/-
  BlockEngine.Proofs.Wire.Accepted — what accepted bytes can stand for.

  Reading takes far more than writing makes: tags, unknown lengths, texts in chunks, keys that come
  twice or are unknown, and null where a record is meant. Whatever is taken, each array and each map
  uses up a level (`Item.Fits`), so a record that is not blank uses one and a list that holds
  something two (`Record.Fits`), and so does its value (`Value.Fits`). Blank is the exception: null
  stands for it and uses none. The texts are UTF-8, no longer than the bytes they came in.

  Of any library as documented:
  * `unpack_fits`: a record takes no more levels than its item.
  * `toValue_fits`: nor does the value of a record.
  * `decode_fits`: a value that bytes hold fits 32 levels.
-/

import BlockEngine.Proofs.Wire.Values

namespace BlockEngine

/-! ## UTF-8 in chunks -/

namespace Text.Utf8

/-- A character of more than one byte lies in the bytes, and what follows does not change it. -/
theorem multi_append {a : UInt8} {rest : Text} {code n : Nat} (h : multi? a rest = some (code, n)) (t : Text) :
    multi? a (rest ++ t) = some (code, n) ∧ n - 1 ≤ rest.length := by
  unfold multi? at h ⊢
  match rest with
  | [] => cases h
  | b :: rest =>
    simp only [List.cons_append, List.length_cons] at h ⊢
    cases h2 : two? a b with
    | some c =>
      simp only [h2] at h ⊢
      cases h
      exact ⟨rfl, by omega⟩
    | none =>
      simp only [h2] at h ⊢
      match rest with
      | [] => cases h
      | c :: rest =>
        simp only [List.cons_append, List.length_cons] at h ⊢
        cases h3 : three? a b c with
        | some c =>
          simp only [h3] at h ⊢
          cases h
          exact ⟨rfl, by omega⟩
        | none =>
          simp only [h3] at h ⊢
          match rest with
          | [] => cases h
          | d :: rest =>
            simp only [List.cons_append, List.length_cons] at h ⊢
            refine ⟨h, ?_⟩
            obtain ⟨c, -, hc⟩ := Option.map_eq_some_iff.mp h
            cases hc
            omega

/-- A first character that is one lies in the bytes, and what follows does not change it. -/
theorem next_append {a : UInt8} {rest : Text} (h : (next a rest).1.isSome) (t : Text) :
    next a (rest ++ t) = next a rest ∧ (next a rest).2 - 1 ≤ rest.length := by
  unfold next at h ⊢
  split
  · exact ⟨rfl, by simp⟩
  next hascii =>
    rw [if_neg hascii] at h
    cases hm : multi? a rest with
    | none => simp [hm] at h
    | some found =>
      obtain ⟨hmore, hlength⟩ := multi_append hm t
      rw [hmore]
      exact ⟨rfl, hlength⟩

/-- UTF-8 followed by UTF-8 is UTF-8. -/
theorem isValid_append {s t : Text} (hs : isValid s = true) (ht : isValid t = true) : isValid (s ++ t) = true := by
  fun_induction decode s with
  | case1 => exact ht
  | case2 a rest code n hnext ih =>
    rw [isValid, decode, hnext, List.all_cons, Bool.and_eq_true] at hs
    obtain ⟨hsome, hlength⟩ := next_append (by rw [hnext]; exact hs.1 : (next a rest).1.isSome) t
    rw [hnext] at hsome hlength
    rw [isValid, List.cons_append, decode, hsome, List.all_cons, List.drop_append_of_le_length hlength, hs.1]
    exact ih hs.2

theorem isValid_flatten {chunks : List Text} (h : chunks.all isValid = true) : isValid chunks.flatten = true := by
  induction chunks with
  | nil => simp [isValid, decode]
  | cons s chunks ih =>
    rw [List.all_cons, Bool.and_eq_true] at h
    exact isValid_append h.1 (ih h.2)

end Text.Utf8

namespace Wire

/-! ## Records -/

/-- Things converted one by one: each result is that of one of them. -/
theorem converted {ε α β : Type} {f : α → Except ε β} {g : List α → Except ε (List β)} (hnil : g [] = .ok [])
    (hcons : ∀ x xs, g (x :: xs) = f x >>= fun y => g xs >>= fun ys => .ok (y :: ys)) {xs : List α} {ys : List β}
    (h : g xs = .ok ys) : ys.length = xs.length ∧ ∀ y ∈ ys, ∃ x ∈ xs, f x = .ok y := by
  induction xs generalizing ys with
  | nil =>
    rw [hnil] at h
    cases h
    exact ⟨rfl, by simp⟩
  | cons x xs ih =>
    rw [hcons] at h
    obtain ⟨y, hy, h⟩ := bind_eq_ok h
    obtain ⟨ys, hys, h⟩ := bind_eq_ok h
    cases h
    obtain ⟨hlength, hall⟩ := ih hys
    refine ⟨by rw [List.length_cons, List.length_cons, hlength], List.forall_mem_cons.mpr ⟨⟨x, List.mem_cons_self, hy⟩, ?_⟩⟩
    intro y' hy'
    obtain ⟨x', hx', hf⟩ := hall y' hy'
    exact ⟨x', List.mem_cons_of_mem x hx', hf⟩

namespace Record

/-- A record out of at most `n` bytes and `d` levels: one for itself unless it is blank, and one for
    its list unless that is empty. -/
inductive Fits (n : Nat) : Nat → Record → Prop where
  | blank {d : Nat} : Fits n d .blank
  | mk {d : Nat} {kind : UInt8} {int : Int64} {double : Double} {text : Text} {list : List Record}
    (hutf8 : Text.Utf8.isValid text = true) (hlength : text.length ≤ n) (hcount : list.length ≤ maxElements)
    (hroom : list ≠ [] → 0 < d) (hlist : ∀ r ∈ list, Fits n (d - 1) r) : Fits n (d + 1) (.mk kind int double text list)

end Record

/-- A record takes no more levels than the item that it was unpacked from. -/
theorem Codec.Documented.unpack_fits {k : Codec} (hk : k.Documented) {n d : Nat} {x : Item} (hx : x.Fits n d)
    {r : Record} (h : k.unpack x = .ok r) : r.Fits n d := by
  induction d using Nat.strong_induction_on generalizing x r with
  | h d ih =>
    rcases hk.null_or_map x r h with ⟨-, rfl⟩ | ⟨entries, hmap, hfrom⟩
    · exact .blank
    have hbare := hx.bare
    rw [hmap] at hbare
    cases hbare with
    | @map d _ hentries =>
    obtain ⟨kind, int, double, text, list⟩ := r
    obtain ⟨htext, hlist⟩ := hfrom
    obtain ⟨hutf8, hlength⟩ : Text.Utf8.isValid text = true ∧ text.length ≤ n := by
      rcases htext with rfl | ⟨y, hy, chunks, hchunks, hvalid, rfl⟩
      · simp [Text.Utf8.isValid, Text.Utf8.decode]
      · have hbare := (hentries y hy).bare
        rw [hchunks] at hbare
        cases hbare with
        | text hn => exact ⟨Text.Utf8.isValid_flatten hvalid, hn⟩
    rcases hlist with rfl | ⟨y, hy, items, hitems, hall⟩
    · exact .mk hutf8 hlength (Nat.zero_le _) (fun hne => (hne rfl).elim) (by simp)
    · have hbare := (hentries y hy).bare
      rw [hitems] at hbare
      cases hbare with
      | @array d _ hcount hfits =>
        obtain ⟨hsame, hof⟩ := converted (f := k.unpack) rfl (fun _ _ => List.mapM_cons) hall
        refine .mk hutf8 hlength (hsame ▸ hcount) (fun _ => d.succ_pos) fun r hr => ?_
        obtain ⟨z, hz, hzr⟩ := hof r hr
        exact ih d (by omega) (hfits z hz) hzr

end Wire

/-! ## Values -/

namespace Value

/-- A value out of at most `n` bytes and `d` levels, as a reader gets it. -/
inductive Fits (n : Nat) : Nat → Value → Prop where
  | nothing {d : Nat} : Fits n d .nothing
  | scalar {d : Nat} {s : Scalar} (hshown : ¬ (scalar .static s).Hidden) (hlegible : (scalar .static s).Legible)
    (hlength : ∀ t, s = .str t → t.length ≤ n) : Fits n (d + 1) (.scalar .static s)
  | list {d : Nat} {items : List Value} (hcount : items.length ≤ Wire.maxElements) (hroom : items ≠ [] → 0 < d)
    (hitems : ∀ v ∈ items, Fits n (d - 1) v) : Fits n (d + 1) (.list .unmanaged 0 items)

end Value

namespace Wire

theorem toValue_fits {n d : Nat} {r : Record} (hr : r.Fits n d) {v : Value} (h : r.toValue = .ok v) : v.Fits n d := by
  induction hr generalizing v with
  | blank =>
    cases h
    exact .nothing
  | mk hutf8 hlength hcount hroom _ ih =>
    rw [Record.toValue] at h
    split at h
    · cases h
      exact .nothing
    · cases h
      exact .scalar (by simp [Value.Hidden, Value.kind, Scalar.kind]) trivial (by simp)
    · cases h
      exact .scalar (by simp [Value.Hidden, Value.kind, Scalar.kind]) trivial (by simp)
    · cases h
      exact .scalar (by simp [Value.Hidden, Value.kind, Scalar.kind]) trivial (by simp)
    · cases h
      exact .scalar (by simp [Value.Hidden, Value.kind, Scalar.kind]) hutf8 (by simpa using hlength)
    · obtain ⟨vs, hvs, h⟩ := bind_eq_ok h
      cases h
      obtain ⟨hsame, hall⟩ := converted (f := Record.toValue) (g := Record.toValues) rfl
        (fun _ _ => by rw [Record.toValues]) hvs
      refine .list (by rw [hsame]; exact hcount) (fun hne => hroom ?_) fun v hv => ?_
      · rintro rfl
        exact hne (List.length_eq_zero_iff.mp hsame)
      · obtain ⟨r, hr, hof⟩ := hall v hv
        exact ih r hr hof
    · cases h

/-- A value that bytes hold fits 32 levels. -/
theorem Codec.Documented.decode_fits {k : Codec} (hk : k.Documented) {t : Text} {v : Value} (h : k.decode t = .ok v) :
    v.Fits t.length maxDepth := by
  unfold Codec.decode at h
  split at h
  · cases h
  next r hr =>
    obtain ⟨x, hx, hof⟩ := bind_eq_ok hr
    split at h
    next hv =>
      cases h
      exact toValue_fits (hk.unpack_fits (hk.keeps_limits t x hx) hof) hv
    · cases h

end Wire

end BlockEngine
