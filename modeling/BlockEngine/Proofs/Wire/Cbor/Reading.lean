/-
  BlockEngine.Proofs.Wire.Cbor.Reading — the limits of reading.

  The reader takes far more than the writer makes: tags, unknown lengths and texts in chunks.
  Whatever it takes, each array and each map uses up a level, and what is read off the front of some
  bytes fits the levels left (`readItem_fits`).
-/

import BlockEngine.Proofs.Wire.Documented
import BlockEngine.Wire.Cbor.Reading

namespace BlockEngine.Wire

theorem Item.Fits.tags {n d : Nat} (tags : List Nat) {x : Item} (h : x.Fits n d) :
    (tags.foldl (fun x k => .tag k x) x).Fits n d := by
  induction tags generalizing x with
  | nil => exact h
  | cons k tags ih => exact ih (.tag h)

/-! ## Readers -/

theorem readBytes_takes {n : Nat} {t s rest : Text} (h : readBytes n t = .ok (s, rest)) :
    s.length + rest.length = t.length := by
  unfold readBytes at h
  split at h
  · cases h
  · cases h
    simp
    omega

theorem readHead_takes {t rest : Text} {h : Head} (hread : readHead t = .ok (h, rest)) : rest.length ≤ t.length := by
  cases t with
  | nil => cases hread
  | cons b t =>
    unfold readHead at hread
    dsimp only at hread
    split at hread
    · cases hread
      simp
    split at hread
    · obtain ⟨⟨digits, rest'⟩, hdigits, hread⟩ := bind_eq_ok hread
      have hlength := readBytes_takes hdigits
      dsimp only at hread
      split at hread
      · cases hread
      · cases hread
        simp
        omega
    split at hread
    · cases hread
      simp
    · cases hread

theorem readString_takes {h : Head} {t s rest : Text} (hread : readString h t = .ok (s, rest)) :
    s.length + rest.length ≤ t.length := by
  unfold readString at hread
  split at hread
  · cases hread
  · exact (readBytes_takes hread).le

theorem readChunk_takes {major : Nat} {t s rest : Text} (hread : readChunk major t = .ok (s, rest)) :
    s.length + rest.length ≤ t.length := by
  unfold readChunk at hread
  split at hread
  · cases hread
  split at hread
  · obtain ⟨⟨h, t'⟩, hhead, hread⟩ := bind_eq_ok hread
    exact (readString_takes hread).trans (readHead_takes hhead)
  · cases hread

/-- What holds of the things read so far and of the bytes that are left, holds at the end if each
    thing keeps it. -/
theorem readMany_keeps {α : Type} {read : Reader α} {I : List α → Text → Prop}
    (hstep : ∀ d t x rest, I d t → read t = .ok (x, rest) → I (x :: d) rest) {count : Nat} {d : List α}
    {t : Text} {xs : List α} {rest : Text} (h : I d t) (hread : readMany read count d t = .ok (xs, rest)) :
    I xs.reverse rest ∧ xs.length = d.length + count := by
  induction count generalizing d t with
  | zero =>
    cases hread
    exact ⟨by simpa using h, by simp⟩
  | succ count ih =>
    obtain ⟨⟨x, t'⟩, hx, hread⟩ := bind_eq_ok hread
    obtain ⟨hinv, hlength⟩ := ih (hstep _ _ _ _ h hx) hread
    exact ⟨hinv, by rw [hlength, List.length_cons]; omega⟩

theorem readOpen_keeps {α : Type} {read : Reader α} {tooMany : Nat → Bool} {I : List α → Text → Prop}
    (hstep : ∀ d t x rest, I d t → read t = .ok (x, rest) → tooMany (d.length + 1) = false →
      I (x :: d) rest)
    (hbreak : ∀ d b t, I d (b :: t) → I d t) {fuel : Nat} {d : List α} {t : Text} {xs : List α} {rest : Text}
    (h : I d t) (hread : readOpen read tooMany fuel d.length d t = .ok (xs, rest)) : I xs.reverse rest := by
  induction fuel generalizing d t with
  | zero => cases t <;> cases hread
  | succ fuel ih =>
    cases t with
    | nil => cases hread
    | cons b t =>
      rw [readOpen] at hread
      split at hread
      · cases hread
        rw [List.reverse_reverse]
        exact hbreak _ _ _ h
      · obtain ⟨⟨x, t'⟩, hx, hread⟩ := bind_eq_ok hread
        dsimp only at hread
        split at hread
        · cases hread
        next hfew => exact ih (hstep _ _ _ _ h hx (by simpa using hfew)) hread

theorem readChunks_takes {h : Head} {t : Text} {chunks : List Text} {rest : Text}
    (hread : readChunks h t = .ok (chunks, rest)) : chunks.flatten.length + rest.length ≤ t.length := by
  unfold readChunks at hread
  split at hread
  · have hkept := readOpen_keeps (I := fun done t' => done.flatten.length + t'.length ≤ t.length) (d := [])
      (fun done t' s rest hinv hs _ => by
        have hs := readChunk_takes hs
        rw [List.flatten_cons, List.length_append]
        omega)
      (fun done b t' hinv => by
        rw [List.length_cons] at hinv
        omega)
      (by simp) hread
    simpa [List.length_flatten, List.map_reverse, List.sum_reverse] using hkept
  · obtain ⟨⟨s, t'⟩, hs, hread⟩ := bind_eq_ok hread
    cases hread
    simpa using readString_takes hs

/-- The elements of an array and the entries of a map, if each is of some sort. -/
theorem readElements_all {P : Item → Prop} {n : Nat} {read : Reader Item}
    (hread : ∀ t x rest, t.length ≤ n → read t = .ok (x, rest) → P x ∧ rest.length ≤ n) {width : Nat} {h : Head} {t : Text}
    (ht : t.length ≤ n) {xs : List Item} {rest : Text} (hxs : readElements read width h t = .ok (xs, rest)) :
    (∀ x ∈ xs, P x) ∧ rest.length ≤ n ∧ (width = 1 → xs.length ≤ maxElements) := by
  unfold readElements at hxs
  split at hxs
  · obtain ⟨⟨ys, t'⟩, hopen, hxs⟩ := bind_eq_ok hxs
    dsimp only at hxs
    split at hxs
    · cases hxs
      have hkept := readOpen_keeps (d := [])
        (I := fun done t' => (∀ x ∈ done, P x) ∧ t'.length ≤ n ∧ (width = 1 → done.length ≤ maxElements))
        (fun done t' x rest hinv hx hfew => by
          obtain ⟨hP, hrest⟩ := hread _ _ _ hinv.2.1 hx
          refine ⟨List.forall_mem_cons.mpr ⟨hP, hinv.1⟩, hrest, ?_⟩
          rintro rfl
          simpa [Nat.mod_one] using hfew)
        (fun done b t' hinv => ⟨hinv.1, by have := hinv.2.1; rw [List.length_cons] at this; omega, hinv.2.2⟩)
        ⟨by simp, ht, by simp⟩ hopen
      simpa using hkept
    · cases hxs
  split at hxs
  · cases hxs
  split at hxs
  · cases hxs
  next hfew =>
    have hkept := readMany_keeps (d := []) (I := fun done t' => (∀ x ∈ done, P x) ∧ t'.length ≤ n)
      (fun done t' x rest hinv hx => by
        obtain ⟨hP, hrest⟩ := hread _ _ _ hinv.2 hx
        exact ⟨List.forall_mem_cons.mpr ⟨hP, hinv.1⟩, hrest⟩)
      ⟨by simp, ht⟩ hxs
    refine ⟨by simpa using hkept.1.1, hkept.1.2, ?_⟩
    rintro rfl
    rw [hkept.2, List.length_nil]
    omega

/-- Tags right below a tag take levels and bytes. -/
theorem readTags_takes {fuel depth depth' : Nat} {tags tags' : List Nat} {t rest : Text}
    (hread : readTags fuel depth tags t = .ok ((tags', depth'), rest)) : depth ≤ depth' ∧ rest.length ≤ t.length := by
  induction fuel generalizing depth tags t with
  | zero => cases hread
  | succ fuel ih =>
    rw [readTags.eq_def] at hread
    dsimp only at hread
    split at hread
    · cases hread
    · split at hread
      · obtain ⟨⟨h, t'⟩, hhead, hread⟩ := bind_eq_ok hread
        have hhead := readHead_takes hhead
        dsimp only at hread
        split at hread
        · cases hread
        · obtain ⟨hdepth, hrest⟩ := ih hread
          omega
      · cases hread
        omega

/-- What is read at a depth fits the levels below it. -/
theorem readItem_fits {n fuel depth : Nat} {t rest : Text} {x : Item} (ht : t.length ≤ n)
    (hread : readItem fuel depth t = .ok (x, rest)) : x.Fits n (maxDepth - depth) ∧ rest.length ≤ n := by
  induction fuel generalizing depth t x rest with
  | zero => cases hread
  | succ fuel ih =>
    rw [readItem] at hread
    obtain ⟨⟨h, t'⟩, hhead, hread⟩ := bind_eq_ok hread
    have ht' : t'.length ≤ n := (readHead_takes hhead).trans ht
    dsimp only at hread
    split at hread
    · cases hread
      exact ⟨.unsigned, ht'⟩
    · cases hread
      exact ⟨.negative, ht'⟩
    · obtain ⟨⟨chunks, t''⟩, hchunks, hread⟩ := bind_eq_ok hread
      have htakes := readChunks_takes hchunks
      dsimp only at hread
      cases hread
      exact ⟨.bytes, by omega⟩
    · obtain ⟨⟨chunks, t''⟩, hchunks, hread⟩ := bind_eq_ok hread
      have htakes := readChunks_takes hchunks
      dsimp only at hread
      cases hread
      exact ⟨.text (by omega), by omega⟩
    · split at hread
      · cases hread
      next hlevel =>
      obtain ⟨⟨items, t''⟩, hitems, hread⟩ := bind_eq_ok hread
      obtain ⟨hall, hrest, hcount⟩ := readElements_all (fun _ _ _ ht hx => ih ht hx) ht' hitems
      cases hread
      have hbelow : maxDepth - depth = maxDepth - (depth + 1) + 1 := by omega
      rw [hbelow]
      exact ⟨.array (hcount rfl) hall, hrest⟩
    · split at hread
      · cases hread
      next hlevel =>
      obtain ⟨⟨entries, t''⟩, hentries, hread⟩ := bind_eq_ok hread
      obtain ⟨hall, hrest, -⟩ := readElements_all (fun _ _ _ ht hx => ih ht hx) ht' hentries
      cases hread
      have hbelow : maxDepth - depth = maxDepth - (depth + 1) + 1 := by omega
      rw [hbelow]
      exact ⟨.map hall, hrest⟩
    · obtain ⟨⟨⟨tags, depth'⟩, t''⟩, htags, hread⟩ := bind_eq_ok hread
      dsimp only at hread
      obtain ⟨⟨content, t'''⟩, hcontent, hread⟩ := bind_eq_ok hread
      obtain ⟨hdepth, hlength⟩ := readTags_takes htags
      obtain ⟨hfits, hrest⟩ := ih (by omega) hcontent
      cases hread
      exact ⟨(hfits.mono (by omega)).tags tags, hrest⟩
    · split at hread
      all_goals cases hread
      · exact ⟨.float, ht'⟩
      · exact ⟨.float, ht'⟩
      · exact ⟨.float, ht'⟩
      · exact ⟨.simple, ht'⟩

theorem ofBytes_fits {t : Text} {x : Item} (h : Item.ofBytes t = .ok x) : x.Fits t.length maxDepth := by
  unfold Item.ofBytes at h
  split at h
  · cases h
  · obtain ⟨⟨y, rest⟩, hread, h⟩ := bind_eq_ok h
    dsimp only at h
    split at h
    · cases h
      exact (readItem_fits le_rfl hread).1
    · cases h

end BlockEngine.Wire
