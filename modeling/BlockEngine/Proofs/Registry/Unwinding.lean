/-
  BlockEngine.Proofs.Registry.Unwinding — how far dropping a reference goes.

  A reference to a definition is dropped: it counts one less, or the definition is freed and the references that
  it holds are dropped in turn, each with all that follows from it before the next. Nothing bounds this but the
  counts, which a definition that embeds itself, or one that is embedded twice, has like any other.

  `Unwinds` says so without fuel. Proved of any registry whose definitions in use have references:
  - `unwinds_unwind`: one more turn than there are references is enough, whatever is embedded in what.
  - `Unwinds.deterministic`: there is one way to go, so enough fuel does not show in what comes of it.
  - `Unwinds.totalRefs_lt`: each reference dropped is one less of all references.
  - `Unwinds.freed_once`: what was freed was in use before, is not afterwards, and was freed once.
-/

import BlockEngine.Proofs.Registry.References

namespace BlockEngine.Registry

variable {r s t : Registry} {h : Handle} {x : Holding} {hs hs' fs fs' : List Handle} {e : Option Error}

/-- Dropping a reference of each handle in turn frees some definitions, in this order, and ends with an error or
    without. -/
inductive Unwinds : List Handle → Registry → List Handle → Option Error → Registry → Prop
  | nil (r : Registry) : Unwinds [] r [] none r
  | stale {r : Registry} {h : Handle} {rest : List Handle} : r.holding? h = none →
      Unwinds (h :: rest) r [] (some (.stale h)) r
  | count {r s : Registry} {h : Handle} {x : Holding} {rest fs : List Handle} {e : Option Error} :
      r.holding? h = some x → 1 < x.refs → Unwinds rest (r.setRefs h x (x.refs - 1)) fs e s →
      Unwinds (h :: rest) r fs e s
  | free {r s t : Registry} {h : Handle} {x : Holding} {rest fs fs' : List Handle} {e : Option Error} :
      r.holding? h = some x → x.refs ≤ 1 → Unwinds (r.kind x.kind).children (r.freeRecord h) fs none t →
      Unwinds rest t fs' e s → Unwinds (h :: rest) r (h :: (fs ++ fs')) e s
  | fail {r s : Registry} {h : Handle} {x : Holding} {rest fs : List Handle} {e : Error} :
      r.holding? h = some x → x.refs ≤ 1 → Unwinds (r.kind x.kind).children (r.freeRecord h) fs (some e) s →
      Unwinds (h :: rest) r (h :: fs) (some e) s

def Counted (r : Registry) : Prop := ∀ {i x}, r.held? i = some x → 0 < x.refs

theorem Counted.setRefs (hr : r.Counted) (hx : r.holding? h = some x) {n : Nat} (hn : 0 < n) :
    (r.setRefs h x n).Counted := by
  intro i y hy
  rw [held?_setRefs n hx] at hy
  by_cases hi : i = h.index.toNat
  · rw [hi, Function.update_self] at hy
    cases hy
    exact hn
  · rw [Function.update_of_ne hi] at hy
    exact hr hy

theorem Counted.freeRecord (hr : r.Counted) (hx : r.holding? h = some x) : (r.freeRecord h).Counted := by
  intro i y hy
  rw [held?_freeRecord hx] at hy
  by_cases hi : i = h.index.toNat
  · rw [hi, Function.update_self] at hy
    cases hy
  · rw [Function.update_of_ne hi] at hy
    exact hr hy

/-! ## It ends -/

/-- Dropping references of some handles and then of others. -/
theorem Unwinds.split {rest : List Handle} (hu : Unwinds (hs ++ rest) r fs e s) :
    (∃ fs₁ fs₂ t, Unwinds hs r fs₁ none t ∧ Unwinds rest t fs₂ e s ∧ fs = fs₁ ++ fs₂) ∨
      ∃ e', e = some e' ∧ Unwinds hs r fs e s := by
  induction hs generalizing r fs with
  | nil => exact .inl ⟨[], fs, r, .nil r, hu, rfl⟩
  | cons h hs ih =>
    cases hu with
    | stale hx => exact .inr ⟨_, rfl, .stale hx⟩
    | count hx hmore hu =>
      rcases ih hu with ⟨fs₁, fs₂, t, h₁, h₂, rfl⟩ | ⟨e', he, h₁⟩
      · exact .inl ⟨fs₁, fs₂, t, .count hx hmore h₁, h₂, rfl⟩
      · exact .inr ⟨e', he, .count hx hmore h₁⟩
    | @free _ _ _ _ _ _ gs _ _ hx hlast hc hu =>
      rcases ih hu with ⟨fs₁, fs₂, t, h₁, h₂, rfl⟩ | ⟨e', he, h₁⟩
      · exact .inl ⟨h :: (gs ++ fs₁), fs₂, t, .free hx hlast hc h₁, h₂, by simp⟩
      · exact .inr ⟨e', he, .free hx hlast hc h₁⟩
    | fail hx hlast hc => exact .inr ⟨_, rfl, .fail hx hlast hc⟩

/-- With more turns than there are references, dropping references goes all the way. -/
theorem unwinds_unwind {n : Nat} (hr : r.Counted) (hn : r.totalRefs < n) :
    ∃ fs, Unwinds hs r fs (unwind n hs r).1 (unwind n hs r).2 := by
  induction n generalizing hs r with
  | zero => omega
  | succ n ih =>
    cases hs with
    | nil => exact ⟨[], .nil r⟩
    | cons h rest =>
      rw [unwind]
      cases hx : r.holding? h with
      | none => exact ⟨[], .stale hx⟩
      | some x =>
        have hpos := hr (holding?_eq_some.mp hx).2.2
        dsimp only
        split
        · have htotal := totalRefs_setRefs hx (x.refs - 1)
          have hcounted : (r.setRefs h x (x.refs - 1)).Counted := hr.setRefs hx (by omega)
          obtain ⟨fs, hu⟩ : ∃ fs, Unwinds rest _ fs _ _ := ih hcounted (by omega)
          exact ⟨fs, .count hx ‹_› hu⟩
        · have htotal := totalRefs_freeRecord hx
          obtain ⟨fs, hu⟩ : ∃ fs, Unwinds ((r.kind x.kind).children ++ rest) _ fs _ _ := ih (hr.freeRecord hx) (by omega)
          generalize unwind n ((r.kind x.kind).children ++ rest) (r.freeRecord h) = o at hu
          rcases hu.split with ⟨fs₁, fs₂, t, hc, hu, -⟩ | ⟨e, he, hc⟩
          · exact ⟨_, .free hx (by omega) hc hu⟩
          · rw [he] at hc ⊢
            exact ⟨_, .fail hx (by omega) hc⟩

/-- There is one way to go. -/
theorem Unwinds.deterministic (hu : Unwinds hs r fs e s) {e' : Option Error} {s' : Registry}
    (hu' : Unwinds hs r fs' e' s') : fs = fs' ∧ e = e' ∧ s = s' := by
  induction hu generalizing fs' e' s' with
  | nil r =>
    cases hu'
    exact ⟨rfl, rfl, rfl⟩
  | stale hx =>
    cases hu' <;> simp_all
  | count hx hmore _ ih =>
    cases hu' with
    | stale hx' => simp [hx] at hx'
    | count hx' _ hu' =>
      cases hx.symm.trans hx'
      exact ih hu'
    | free hx' hlast =>
      cases hx.symm.trans hx'
      omega
    | fail hx' hlast =>
      cases hx.symm.trans hx'
      omega
  | free hx hlast _ _ ih ih' =>
    cases hu' with
    | stale hx' => simp [hx] at hx'
    | count hx' hmore =>
      cases hx.symm.trans hx'
      omega
    | free hx' _ hc hu' =>
      cases hx.symm.trans hx'
      obtain ⟨rfl, -, rfl⟩ := ih hc
      obtain ⟨rfl, rfl, rfl⟩ := ih' hu'
      exact ⟨rfl, rfl, rfl⟩
    | fail hx' _ hc =>
      cases hx.symm.trans hx'
      cases (ih hc).2.1
  | fail hx hlast _ ih =>
    cases hu' with
    | stale hx' => simp [hx] at hx'
    | count hx' hmore =>
      cases hx.symm.trans hx'
      omega
    | free hx' _ hc =>
      cases hx.symm.trans hx'
      cases (ih hc).2.1
    | fail hx' _ hc =>
      cases hx.symm.trans hx'
      obtain ⟨rfl, he, rfl⟩ := ih hc
      exact ⟨rfl, he, rfl⟩

/-! ## What it leaves -/

theorem Unwinds.totalRefs_le (hu : Unwinds hs r fs e s) : s.totalRefs ≤ r.totalRefs := by
  induction hu with
  | nil => exact Nat.le_refl _
  | stale => exact Nat.le_refl _
  | @count _ _ _ x _ _ _ hx _ _ ih =>
    have htotal := totalRefs_setRefs hx (x.refs - 1)
    omega
  | free hx _ _ _ ih ih' =>
    have htotal := totalRefs_freeRecord hx
    omega
  | fail hx _ _ ih =>
    have htotal := totalRefs_freeRecord hx
    omega

/-- A reference that there is counts in all references. -/
theorem Unwinds.totalRefs_lt (hr : r.Counted) (hx : r.holding? h = some x) (hu : Unwinds (h :: hs) r fs e s) :
    s.totalRefs < r.totalRefs := by
  have hpos := hr (holding?_eq_some.mp hx).2.2
  cases hu with
  | stale hx' => simp [hx] at hx'
  | count hx' hmore hu =>
    cases hx.symm.trans hx'
    have htotal := totalRefs_setRefs hx (x.refs - 1)
    have hle := hu.totalRefs_le
    omega
  | free hx' _ hc hu =>
    cases hx.symm.trans hx'
    have htotal := totalRefs_freeRecord hx
    have hle := hc.totalRefs_le
    have hle' := hu.totalRefs_le
    omega
  | fail hx' _ hc =>
    cases hx.symm.trans hx'
    have htotal := totalRefs_freeRecord hx
    have hle := hc.totalRefs_le
    omega

/-- What is not in use is not put to use, nor freed again. -/
theorem Unwinds.unused (hu : Unwinds hs r fs e s) {i : Nat} (hi : r.held? i = none) :
    s.held? i = none ∧ ∀ f ∈ fs, f.index.toNat ≠ i := by
  have hother : ∀ {r : Registry} {h : Handle} {x : Holding}, r.holding? h = some x → r.held? i = none →
      h.index.toNat ≠ i := by
    rintro r h x hx hi rfl
    rw [(holding?_eq_some.mp hx).2.2] at hi
    cases hi
  induction hu with
  | nil => exact ⟨hi, by simp⟩
  | stale => exact ⟨hi, by simp⟩
  | count hx _ _ ih =>
    refine ih ?_
    rw [held?_setRefs _ hx, Function.update_of_ne (hother hx hi).symm, hi]
  | free hx _ _ _ ih ih' =>
    have hne := hother hx hi
    obtain ⟨ht, hfs⟩ := ih (by rw [held?_freeRecord hx, Function.update_of_ne hne.symm, hi])
    obtain ⟨hs, hfs'⟩ := ih' ht
    refine ⟨hs, List.forall_mem_cons.mpr ⟨hne, fun f hf => ?_⟩⟩
    exact (List.mem_append.mp hf).elim (hfs f) (hfs' f)
  | fail hx _ _ ih =>
    have hne := hother hx hi
    obtain ⟨hs, hfs⟩ := ih (by rw [held?_freeRecord hx, Function.update_of_ne hne.symm, hi])
    exact ⟨hs, List.forall_mem_cons.mpr ⟨hne, hfs⟩⟩

/-- What is in use afterwards was before. -/
theorem Unwinds.used (hu : Unwinds hs r fs e s) {i : Nat} {y : Holding} (hi : s.held? i = some y) :
    ∃ x, r.held? i = some x := by
  cases hr : r.held? i with
  | some x => exact ⟨x, rfl⟩
  | none =>
    rw [(hu.unused hr).1] at hi
    cases hi

/-- What was freed was in use and is not any more, and no record was freed twice. -/
structure FreedOnce (r s : Registry) (fs : List Handle) : Prop where
  nodup : (fs.map (·.index)).Nodup
  used : ∀ f ∈ fs, ∃ x, r.held? f.index.toNat = some x
  unused : ∀ f ∈ fs, s.held? f.index.toNat = none
  free : s.free = (fs.map (·.index)).reverse ++ r.free

theorem FreedOnce.cons (hx : r.holding? h = some x) (hfs : FreedOnce (r.freeRecord h) s fs)
    (hs : s.held? h.index.toNat = none) (hnot : ∀ f ∈ fs, f.index.toNat ≠ h.index.toNat) : FreedOnce r s (h :: fs) := by
  have hy := (holding?_eq_some.mp hx).2.2
  refine ⟨?_, List.forall_mem_cons.mpr ⟨⟨x, hy⟩, fun f hf => ?_⟩, List.forall_mem_cons.mpr ⟨hs, hfs.unused⟩, ?_⟩
  · rw [List.map_cons, List.nodup_cons]
    refine ⟨fun hmem => ?_, hfs.nodup⟩
    obtain ⟨f, hf, hindex⟩ := List.mem_map.mp hmem
    exact hnot f hf (congrArg UInt32.toNat hindex)
  · obtain ⟨y, hy⟩ := hfs.used f hf
    rw [held?_freeRecord hx, Function.update_of_ne (hnot f hf)] at hy
    exact ⟨y, hy⟩
  · rw [hfs.free]
    simp [freeRecord]

theorem Unwinds.freed_once (hu : Unwinds hs r fs e s) : FreedOnce r s fs := by
  have hfreed : ∀ {r : Registry} {h : Handle} {x : Holding}, r.holding? h = some x →
      (r.freeRecord h).held? h.index.toNat = none := by
    intro r h x hx
    rw [held?_freeRecord hx, Function.update_self]
  induction hu with
  | nil => exact ⟨by simp, by simp, by simp, rfl⟩
  | stale => exact ⟨by simp, by simp, by simp, rfl⟩
  | @count _ _ h _ _ _ _ hx _ _ ih =>
    refine ⟨ih.nodup, fun f hf => ?_, ih.unused, ih.free⟩
    obtain ⟨y, hy⟩ := ih.used f hf
    rw [held?_setRefs _ hx] at hy
    by_cases hi : f.index.toNat = h.index.toNat
    · exact ⟨_, hi ▸ (holding?_eq_some.mp hx).2.2⟩
    · rw [Function.update_of_ne hi] at hy
      exact ⟨y, hy⟩
  | free hx _ hc hu ih ih' =>
    obtain ⟨ht, hnot⟩ := hc.unused (hfreed hx)
    obtain ⟨hs, hnot'⟩ := hu.unused ht
    refine .cons hx ⟨?_, fun f hf => ?_, fun f hf => ?_, ?_⟩ hs fun f hf => (List.mem_append.mp hf).elim (hnot f) (hnot' f)
    · rw [List.map_append, List.nodup_append]
      refine ⟨ih.nodup, ih'.nodup, ?_⟩
      rintro i hi j hj rfl
      obtain ⟨f, hf, rfl⟩ := List.mem_map.mp hi
      obtain ⟨g, hg, hindex⟩ := List.mem_map.mp hj
      exact (hu.unused (ih.unused f hf)).2 g hg (congrArg UInt32.toNat hindex)
    · rcases List.mem_append.mp hf with hf | hf
      · exact ih.used f hf
      · obtain ⟨y, hy⟩ := ih'.used f hf
        exact hc.used hy
    · rcases List.mem_append.mp hf with hf | hf
      · exact (hu.unused (ih.unused f hf)).1
      · exact ih'.unused f hf
    · rw [ih'.free, ih.free]
      simp
  | fail hx _ hc ih =>
    obtain ⟨hs, hnot⟩ := hc.unused (hfreed hx)
    exact .cons hx ih hs hnot

/-! ## Releases -/

/-- A release goes all the way, and is answered as dropping the reference ended. -/
theorem release_unwinds (hr : r.Counted) (hx : r.holding? h = some x) :
    ∃ fs e, Unwinds [h] r fs e (r.release h).2 ∧
      (r.release h).1 = e.elim (.ok (x.refs - 1)) .error := by
  obtain ⟨fs, hu⟩ : ∃ fs, Unwinds [h] r fs _ _ := unwinds_unwind hr (Nat.lt_succ_self r.totalRefs)
  rw [release, hx]
  dsimp only
  generalize unwind (r.totalRefs + 1) [h] r = o at hu
  obtain ⟨_ | e, s⟩ := o
  · exact ⟨fs, none, hu, rfl⟩
  · exact ⟨fs, some e, hu, rfl⟩

end BlockEngine.Registry
