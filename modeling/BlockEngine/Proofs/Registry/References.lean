/-
  BlockEngine.Proofs.Registry.References — counts are exact.

  The references to a definition are those from outside the registry and those from the inputs of
  definitions in use. A registry is `Exact` for the references from outside if every count is the
  number of references, and definitions embed only what was put to use before them; so nothing that is
  mentioned anywhere is freed.

  Proved of an exact registry:
  - `Exact.alloc`: a new definition takes over the references to what it embeds, for one to itself.
  - `Exact.unwind`, `Exact.release`: dropping a reference that there is succeeds, and frees what is
    left without references, all the way down.
  - `Exact.copyDefinition`: a definition in use can be copied, for one reference to the copy.
-/

import BlockEngine.Proofs.Registry.Handles
import Mathlib.Algebra.BigOperators.Group.Finset.Basic
import Mathlib.Algebra.Order.BigOperators.Group.Finset

namespace BlockEngine.Registry

open Finset

/-! ## One handle at a time -/

section

variable {r s : Registry} {h h' : Handle} {x : Holding}

theorem holding?_setRefs (hx : r.holding? h = some x) (n : Nat) (h' : Handle) :
    (r.setRefs h x n).holding? h' = if h' = h then some ⟨x.kind, n⟩ else r.holding? h' := by
  obtain ⟨hz, hg, hy⟩ := holding?_eq_some.mp hx
  apply Option.ext
  intro y
  rw [holding?_eq_some, generation_setRefs n hx, held?_setRefs n hx]
  by_cases hh : h' = h
  · subst hh
    simp [hz, hg]
  · rw [if_neg hh, holding?_eq_some]
    by_cases hi : h'.index.toNat = h.index.toNat
    · have hne : h.generation ≠ h'.generation := fun he =>
        hh (by cases h; cases h'; simp_all [UInt32.toNat_inj])
      simp [hi, hg, hne]
    · rw [Function.update_of_ne hi]

theorem holding?_freeRecord (hx : r.holding? h = some x) (h' : Handle) :
    (r.freeRecord h).holding? h' = if h' = h then none else r.holding? h' := by
  obtain ⟨hz, hg, hy⟩ := holding?_eq_some.mp hx
  apply Option.ext
  intro y
  rw [holding?_eq_some, generation_freeRecord hx, held?_freeRecord hx]
  by_cases hh : h' = h
  · subst hh
    simp
  · rw [if_neg hh, holding?_eq_some]
    by_cases hi : h'.index.toNat = h.index.toNat
    · have hne : h.generation ≠ h'.generation := fun he =>
        hh (by cases h; cases h'; simp_all [UInt32.toNat_inj])
      simp [hi, hg, hne]
    · rw [Function.update_of_ne hi, Function.update_of_ne hi]

theorem holding?_placed {d : Definition} {i : Nat} (hp : Placed r d i h s) (hroom : s.Roomy) (h' : Handle) :
    s.holding? h' = if h' = h then some ⟨r.kinds.size, 1⟩ else r.holding? h' := by
  by_cases hh : h' = h
  · rw [if_pos hh, hh, hp.addressed hroom]
  · have hi := hp.index hroom
    apply Option.ext
    intro y
    rw [if_neg hh, holding?_eq_some, holding?_eq_some, hp.generation, hp.held]
    by_cases hij : h'.index.toNat = i
    · have hne : r.generation i ≠ h'.generation := by
        intro he
        have hidx : h'.index = h.index := UInt32.toNat_inj.mp (hij.trans hi.symm)
        have hgen : h'.generation = h.generation := by rw [← he, hp.handle]
        exact hh (by cases h; cases h'; simp_all)
      simp [hij, hne]
    · rw [Function.update_of_ne hij]

end

/-! ## Sums over records -/

def embedsAt (r : Registry) (h : Handle) (i : Nat) : Nat :=
  (r.held? i).elim 0 fun x => (r.kind x.kind).children.count h

/-- How many inputs of definitions in use embed a handle. -/
def embeds (r : Registry) (h : Handle) : Nat := ∑ i ∈ range r.records.size, r.embedsAt h i

def refsAt (r : Registry) (i : Nat) : Nat := (r.held? i).elim 0 (·.refs)

/-- Two sums that differ in one term. -/
theorem sum_range_change {f g : Nat → Nat} {i n : Nat} (hi : i < n) (hfg : ∀ j, j ≠ i → f j = g j) :
    ∑ j ∈ range n, f j + g i = ∑ j ∈ range n, g j + f i := by
  have hf := add_sum_erase (range n) f (mem_range.mpr hi)
  have hg := add_sum_erase (range n) g (mem_range.mpr hi)
  have hrest : ∑ j ∈ (range n).erase i, f j = ∑ j ∈ (range n).erase i, g j :=
    sum_congr rfl fun j hj => hfg j (ne_of_mem_erase hj)
  omega

theorem held?_eq_none {r : Registry} {i : Nat} (hi : r.records.size ≤ i) : r.held? i = none := by
  simp [held?, hi]

theorem embeds_eq (r : Registry) (h : Handle) {n : Nat} (hn : r.records.size ≤ n) :
    r.embeds h = ∑ i ∈ range n, r.embedsAt h i :=
  sum_subset (range_mono hn) fun i _ hi => by simp [embedsAt, held?_eq_none (by simpa using hi)]

theorem totalRefs_eq (r : Registry) : r.totalRefs = ∑ i ∈ range r.records.size, r.refsAt i := by
  have hr : r.records.toList.map (fun x => (x.holding.map (·.refs)).getD 0) =
      (List.range r.records.size).map r.refsAt := by
    apply List.ext_getElem?
    intro i
    by_cases hi : i < r.records.size
    · simp only [List.getElem?_map, Array.getElem?_toList, Array.getElem?_eq_getElem hi, List.getElem?_range hi,
        Option.map_some, refsAt, held?, Option.bind_some]
      cases r.records[i].holding <;> rfl
    · simp [hi]
  rw [totalRefs, hr]
  rfl

/-! ## Exact counts -/

/-- References from outside, with one more for each of some handles. -/
def plus (ext : Handle → Nat) (hs : List Handle) (h : Handle) : Nat := ext h + hs.count h

/-- Every count is the number of references, of which `ext` are from outside, and definitions embed what
    was put to use before them. -/
structure Exact (r : Registry) (ext : Handle → Nat) : Prop where
  arena : r.Arena
  counts : ∀ h, h.generation ≠ 0 → r.refCount h = ext h + r.embeds h
  ordered : ∀ {i x}, r.held? i = some x → ∀ c ∈ (r.kind x.kind).children,
    ∃ y, r.holding? c = some y ∧ y.kind < x.kind

theorem Exact.new : Exact {} fun _ => 0 where
  arena := .new
  counts h _ := by
    have hz : ({} : Registry).holding? h = none := by simp [holding?]
    simp [refCount, hz, embeds]
  ordered := by simp [held?]

section

variable {r s : Registry} {ext ext' : Handle → Nat} {h : Handle} {x : Holding} {d : Definition} {hs : List Handle}

theorem Exact.congr (he : r.Exact ext) (hext : ∀ h, h.generation ≠ 0 → ext h = ext' h) : r.Exact ext' :=
  ⟨he.arena, fun h hz => by rw [he.counts h hz, hext h hz], he.ordered⟩

theorem refCount_of_holding (hx : r.holding? h = some x) : r.refCount h = x.refs := by simp [refCount, hx]

theorem Exact.refs_eq (he : r.Exact ext) (hx : r.holding? h = some x) : x.refs = ext h + r.embeds h := by
  rw [← refCount_of_holding hx, he.counts h (holding?_eq_some.mp hx).1]

/-- What is referred to is in use. -/
theorem Exact.holding (he : r.Exact ext) (hz : h.generation ≠ 0) (hpos : 0 < ext h + r.embeds h) :
    ∃ x, r.holding? h = some x := by
  rw [← he.counts h hz] at hpos
  unfold refCount at hpos
  split at hpos
  · exact ⟨_, ‹_›⟩
  · exact absurd hpos (Nat.lt_irrefl 0)

theorem Exact.none_of_stale (he : r.Exact ext) (hz : h.generation ≠ 0) (hx : r.holding? h = none) :
    ext h = 0 ∧ r.embeds h = 0 := by
  have hc := he.counts h hz
  simp only [refCount, hx] at hc
  omega

theorem mem_children_nonzero {c : Handle} (hc : c ∈ d.children) : c.generation ≠ 0 := by
  have h := (List.mem_filter.mp hc).2
  simpa [Handle.isZero] using h

theorem embedsAt_le (r : Registry) (h : Handle) {i : Nat} (hx : r.held? i = some x) : r.embedsAt h i ≤ r.embeds h :=
  single_le_sum (fun _ _ => Nat.zero_le _) (mem_range.mpr (lt_size_of_held? hx))

/-- A count changes, and with it the references from outside. -/
theorem Exact.setRefs (he : r.Exact ext) (hx : r.holding? h = some x) {n : Nat} (hn : 0 < n)
    (hext : ∀ h', h' ≠ h → ext' h' = ext h') (hh : ext' h + r.embeds h = n) : (r.setRefs h x n).Exact ext' := by
  have hheld := held?_setRefs n hx
  obtain ⟨-, -, hy⟩ := holding?_eq_some.mp hx
  have hemb : ∀ h', (r.setRefs h x n).embeds h' = r.embeds h' := by
    intro h'
    have hsize : (r.setRefs h x n).records.size = r.records.size := Array.size_setIfInBounds
    rw [embeds, embeds, hsize]
    refine sum_congr rfl fun i _ => ?_
    unfold embedsAt
    rw [hheld]
    by_cases hi : i = h.index.toNat
    · simp only [hi, Function.update_self, hy]
      rfl
    · rw [Function.update_of_ne hi]
      rfl
  refine ⟨he.arena.setRefs hx hn, fun h' hz => ?_, fun {i y} hi c hc => ?_⟩
  · rw [hemb, refCount, holding?_setRefs hx]
    by_cases hh' : h' = h
    · subst hh'
      simp [hh]
    · simp only [if_neg hh', hext h' hh', ← he.counts h' hz]
      rfl
  · have hkind : ∃ z, r.held? i = some z ∧ z.kind = y.kind := by
      rw [hheld] at hi
      by_cases hij : i = h.index.toNat
      · rw [hij, Function.update_self] at hi
        cases hi
        exact ⟨x, hij ▸ hy, rfl⟩
      · rw [Function.update_of_ne hij] at hi
        exact ⟨y, hi, rfl⟩
    obtain ⟨z, hz, hzk⟩ := hkind
    obtain ⟨w, hw, hlt⟩ := he.ordered hz c (hzk ▸ hc)
    rw [holding?_setRefs hx]
    by_cases hch : c = h
    · subst hch
      rw [hx] at hw
      cases hw
      exact ⟨_, if_pos rfl, hzk ▸ hlt⟩
    · exact ⟨w, by rw [if_neg hch, hw], hzk ▸ hlt⟩

theorem Exact.retain (he : r.Exact ext) (hx : r.holding? h = some x) :
    (r.setRefs h x (x.refs + 1)).Exact (plus ext [h]) := by
  refine he.setRefs hx (Nat.succ_pos _) (fun h' hne => ?_) ?_
  · simp [plus, Ne.symm hne]
  · simp only [plus, List.count_singleton_self]
    have := he.refs_eq hx
    omega

/-! ## Dropping references -/

theorem Exact.freeRecord {rest : List Handle} (he : r.Exact (plus ext (h :: rest))) (hx : r.holding? h = some x)
    (hlast : x.refs ≤ 1) : (r.freeRecord h).Exact (plus ext ((r.kind x.kind).children ++ rest)) := by
  obtain ⟨hz, hg, hy⟩ := holding?_eq_some.mp hx
  have hheld := held?_freeRecord hx
  -- the last reference was the one dropped: nothing else mentions the handle
  have hnone : ext h = 0 ∧ rest.count h = 0 ∧ r.embeds h = 0 := by
    have hrefs := he.refs_eq hx
    simp only [plus, List.count_cons_self] at hrefs
    omega
  have hemb : ∀ h', (r.freeRecord h).embeds h' + (r.kind x.kind).children.count h' = r.embeds h' := by
    intro h'
    have hsize : (r.freeRecord h).records.size = r.records.size := Array.size_setIfInBounds
    have hchange := sum_range_change (f := (r.freeRecord h).embedsAt h') (g := r.embedsAt h')
      (lt_size_of_held? hy) fun j hj => by
        unfold embedsAt
        rw [hheld, Function.update_of_ne hj]
        rfl
    have hold : r.embedsAt h' h.index.toNat = (r.kind x.kind).children.count h' := by simp [embedsAt, hy]
    have hnew : (r.freeRecord h).embedsAt h' h.index.toNat = 0 := by simp [embedsAt, hheld]
    rw [hold, hnew] at hchange
    rw [embeds, embeds, hsize]
    exact hchange
  refine ⟨he.arena.freeRecord hx, fun h' hz' => ?_, fun {i y} hi c hc => ?_⟩
  · have hcount := he.counts h' hz'
    have hsum := hemb h'
    simp only [plus, List.count_append] at hcount ⊢
    by_cases hh : h' = h
    · subst hh
      rw [refCount, holding?_freeRecord hx, if_pos rfl]
      show 0 = _
      omega
    · have hsame : (r.freeRecord h).refCount h' = r.refCount h' := by
        rw [refCount, holding?_freeRecord hx, if_neg hh]
        rfl
      rw [List.count_cons_of_ne (Ne.symm hh)] at hcount
      omega
  · have hi' : r.held? i = some y := by
      rw [hheld] at hi
      by_cases hij : i = h.index.toNat
      · simp [hij] at hi
      · rwa [Function.update_of_ne hij] at hi
    obtain ⟨w, hw, hlt⟩ := he.ordered hi' c hc
    have hch : c ≠ h := by
      rintro rfl
      have hle := embedsAt_le r c hi'
      have hpos : 0 < r.embedsAt c i := by
        simp only [embedsAt, hi', Option.elim_some]
        exact List.count_pos_iff.mpr hc
      omega
    exact ⟨w, by rw [holding?_freeRecord hx, if_neg hch, hw], hlt⟩

theorem totalRefs_setRefs (hx : r.holding? h = some x) (n : Nat) :
    (r.setRefs h x n).totalRefs + x.refs = r.totalRefs + n := by
  obtain ⟨-, -, hy⟩ := holding?_eq_some.mp hx
  have hheld := held?_setRefs n hx
  have hsize : (r.setRefs h x n).records.size = r.records.size := Array.size_setIfInBounds
  have hchange := sum_range_change (f := (r.setRefs h x n).refsAt) (g := r.refsAt)
    (lt_size_of_held? hy) fun j hj => by rw [refsAt, refsAt, hheld, Function.update_of_ne hj]
  rw [totalRefs_eq, totalRefs_eq, hsize]
  simpa [refsAt, hy, hheld] using hchange

theorem totalRefs_freeRecord (hx : r.holding? h = some x) :
    (r.freeRecord h).totalRefs + x.refs = r.totalRefs := by
  obtain ⟨-, -, hy⟩ := holding?_eq_some.mp hx
  have hheld := held?_freeRecord hx
  have hsize : (r.freeRecord h).records.size = r.records.size := Array.size_setIfInBounds
  have hchange := sum_range_change (f := (r.freeRecord h).refsAt) (g := r.refsAt)
    (lt_size_of_held? hy) fun j hj => by rw [refsAt, refsAt, hheld, Function.update_of_ne hj]
  rw [totalRefs_eq, totalRefs_eq, hsize]
  simpa [refsAt, hy, hheld] using hchange

/-- References that there are can be dropped. Each turn drops one of all references, so the fuel does not
    run out. -/
theorem Exact.unwind {n : Nat} (he : r.Exact (plus ext hs)) (hz : ∀ h ∈ hs, h.generation ≠ 0)
    (hn : r.totalRefs < n) : (unwind n hs r).1 = none ∧ (unwind n hs r).2.Exact ext := by
  induction n generalizing hs r with
  | zero => omega
  | succ n ih =>
    cases hs with
    | nil => exact ⟨rfl, he.congr fun h _ => by simp [plus]⟩
    | cons h rest =>
      obtain ⟨x, hx⟩ := he.holding (hz h List.mem_cons_self) (by simp only [plus, List.count_cons_self]; omega)
      have hpos := he.arena.counted (holding?_eq_some.mp hx).2.2
      have hz' : ∀ h ∈ rest, h.generation ≠ 0 := fun h hh => hz h (List.mem_cons_of_mem _ hh)
      rw [Registry.unwind, hx]
      dsimp only
      split
      · have hrefs := he.refs_eq hx
        have htotal := totalRefs_setRefs hx (x.refs - 1)
        refine ih (he.setRefs hx (by omega) (fun h' hne => ?_) ?_) hz' (by omega)
        · simp [plus, List.count_cons_of_ne (Ne.symm hne)]
        · simp only [plus, List.count_cons_self] at hrefs ⊢
          omega
      · have htotal := totalRefs_freeRecord hx
        refine ih (he.freeRecord hx (by omega)) (fun c hc => ?_) (by omega)
        rcases List.mem_append.mp hc with hc | hc
        · exact mem_children_nonzero hc
        · exact hz' c hc

theorem Exact.release (he : r.Exact (plus ext [h])) (hz : h.generation ≠ 0) :
    ∃ n, (r.release h).1 = .ok n ∧ (r.release h).2.Exact ext := by
  obtain ⟨x, hx⟩ := he.holding hz (by simp only [plus, List.count_cons_self]; omega)
  obtain ⟨hok, hex⟩ := he.unwind (fun c hc => List.mem_singleton.mp hc ▸ hz) (Nat.lt_succ_self _)
  refine ⟨x.refs - 1, ?_⟩
  rw [Registry.release, hx]
  dsimp only
  generalize Registry.unwind (r.totalRefs + 1) [h] r = o at hok hex
  obtain ⟨e, s⟩ := o
  cases hok
  exact ⟨rfl, hex⟩

/-! ## New definitions -/

theorem kind_push {k : Nat} (hs : s.kinds = r.kinds.push d) (hk : k < r.kinds.size) : s.kind k = r.kind k := by
  simp [kind, hs, Array.getElem?_push, Nat.ne_of_lt hk]

theorem kind_push_size (hs : s.kinds = r.kinds.push d) : s.kind r.kinds.size = d := by simp [kind, hs]

theorem embeds_placed {i : Nat} (ha : r.Arena) (hp : Placed r d i h s) (h' : Handle) :
    s.embeds h' = r.embeds h' + d.children.count h' := by
  have hold : r.embedsAt h' i = 0 := by simp [embedsAt, hp.unused]
  have hnew : s.embedsAt h' i = d.children.count h' := by
    simp [embedsAt, hp.held, kind_push_size hp.kinds]
  have hchange := sum_range_change (f := s.embedsAt h') (g := r.embedsAt h') hp.lt_size fun j hj => by
    unfold embedsAt
    rw [hp.held, Function.update_of_ne hj]
    cases hy : r.held? j with
    | none => rfl
    | some y => simp [kind_push hp.kinds (ha.known hy)]
  rw [hold, hnew] at hchange
  rw [embeds, embeds_eq r h' hp.grows]
  exact hchange

/-- The handle of a record that was not in use was stale. -/
theorem Placed.stale {i : Nat} (hp : Placed r d i h s) (hroom : s.Roomy) : r.holding? h = none := by
  cases hx : r.holding? h with
  | none => rfl
  | some x =>
    have hy := (holding?_eq_some.mp hx).2.2
    rw [hp.index hroom, hp.unused] at hy
    cases hy

/-- A definition takes over the references to what it embeds. -/
theorem Exact.placed {i : Nat} (he : r.Exact (plus ext d.children)) (hp : Placed r d i h s) (hs : s.Arena)
    (hroom : s.Roomy) : s.Exact (plus ext [h]) := by
  have hhold := holding?_placed hp hroom
  have hunused := hp.stale hroom
  refine ⟨hs, fun h' hz => ?_, fun {j y} hj c hc => ?_⟩
  · have hcount := he.counts h' hz
    rw [embeds_placed he.arena hp, refCount, hhold]
    simp only [plus] at hcount ⊢
    by_cases hh : h' = h
    · subst hh
      have hnone := he.none_of_stale hz hunused
      simp only [plus] at hnone
      simp only [if_pos, List.count_singleton_self]
      omega
    · rw [if_neg hh, List.count_singleton]
      simp only [beq_iff_eq, Ne.symm hh, if_false]
      change r.refCount h' = _
      omega
  · by_cases hji : j = i
    · rw [hp.held, hji, Function.update_self] at hj
      cases hj
      have hc' : c ∈ d.children := by rwa [kind_push_size hp.kinds] at hc
      have hpos : 0 < d.children.count c := List.count_pos_iff.mpr hc'
      obtain ⟨w, hw'⟩ := he.holding (mem_children_nonzero hc') (by simp only [plus]; omega)
      have hch : c ≠ h := by
        rintro rfl
        rw [hunused] at hw'
        cases hw'
      exact ⟨w, by rw [hhold, if_neg hch, hw'], he.arena.known (holding?_eq_some.mp hw').2.2⟩
    · rw [hp.held, Function.update_of_ne hji] at hj
      rw [kind_push hp.kinds (he.arena.known hj)] at hc
      obtain ⟨w, hw', hlt⟩ := he.ordered hj c hc
      have hch : c ≠ h := by
        rintro rfl
        rw [hunused] at hw'
        cases hw'
      exact ⟨w, by rw [hhold, if_neg hch, hw'], hlt⟩

theorem Exact.alloc (he : r.Exact (plus ext d.children)) (hroom : (r.alloc d).2.Roomy) :
    (r.alloc d).2.Exact (plus ext [(r.alloc d).1]) := by
  obtain ⟨i, hp⟩ := he.arena.placed d
  exact he.placed hp (he.arena.alloc d) hroom

/-- Nothing has a reference to a definition before it is put to use. -/
theorem Exact.alloc_new (he : r.Exact ext) (hroom : (r.alloc d).2.Roomy) :
    ext (r.alloc d).1 = 0 ∧ (r.alloc d).1.generation ≠ 0 := by
  obtain ⟨i, hp⟩ := he.arena.placed d
  have hz := (holding?_eq_some.mp (hp.addressed hroom)).1
  exact ⟨(he.none_of_stale hz (hp.stale hroom)).1, hz⟩

/-! ## Copies -/

def embedded (is : List Input) : List Handle := (is.map (·.child)).filter (!·.isZero)

theorem count_embedded_cons {i : Input} {is : List Input} (hz : h.generation ≠ 0) :
    (embedded (i :: is)).count h = [i.child].count h + (embedded is).count h := by
  by_cases hi : i.child.isZero
  · have hne : i.child ≠ h := by
      rintro rfl
      simp [Handle.isZero] at hi
      exact hz hi
    simp [embedded, hi, hne]
  · simp [embedded, hi, List.count_cons, Nat.add_comm]

theorem definition?_eq_some : r.definition? h = some d ↔ ∃ x, r.holding? h = some x ∧ r.kind x.kind = d := by
  simp [definition?, kind?]

theorem kind_evolves {frees lists : Bool} {k : Nat} (he : Evolves frees lists r s) (hk : k < r.kinds.size) :
    s.kind k = r.kind k := by
  obtain ⟨more, hm⟩ := kinds_evolves he
  rw [kind, kind, hm, Array.getElem?_append_left hk]

/-- A definition in use is so after growth. -/
theorem definition?_grows (ha : r.Arena) (he : Evolves false false r s) (hd : r.definition? h = some d) :
    s.definition? h = some d := by
  obtain ⟨x, hx, rfl⟩ := definition?_eq_some.mp hd
  obtain ⟨y, hy, hk⟩ := kind?_eq_some.mp (kind?_grows ha he (kind?_eq_some.mpr ⟨x, hx, rfl⟩))
  exact definition?_eq_some.mpr ⟨y, hy, by rw [hk, kind_evolves he (ha.known (holding?_eq_some.mp hx).2.2)]⟩

theorem Exact.copyInputs {copy : Copier} {is js : List Input}
    (hevolves : ∀ h r o, copy h r = some o → Evolves false false r o.2)
    (hcopy : ∀ {h h' r s ext}, Exact r ext → copy h r = some (.ok h', s) → s.Roomy → s.Exact (plus ext [h']))
    (he : r.Exact ext) (ho : copyInputs copy is r = some (.ok js, s)) (hroom : s.Roomy) :
    s.Exact (plus ext (embedded js)) := by
  induction is generalizing r ext js with
  | nil =>
    cases ho
    exact he.congr fun h _ => by simp [plus, embedded]
  | cons i rest ih =>
    rw [Registry.copyInputs] at ho
    split at ho
    · rename_i hz
      split at ho
      · rename_i ks t hks
        cases ho
        exact (ih he hks).congr fun h _ => by simp [plus, embedded, hz]
      · rename_i hno
        exact absurd ho (hno _ _)
    · split at ho
      · rename_i c t hc
        split at ho
        · rename_i ks u hks
          cases ho
          -- the rest grows from `t`, so there is room in `t`
          have ht := hroom.of_evolves (he.arena.of_evolves (hevolves _ _ _ hc)) (copyInputs_evolves hevolves _ _ hks)
          refine (ih (hcopy he hc ht) hks).congr fun h hz => ?_
          simp only [plus, count_embedded_cons hz]
          omega
        · rename_i hno
          exact absurd ho (hno _ _)
      · cases ho
      · cases ho

theorem Exact.copyTree {n : Nat} {h' : Handle} (he : r.Exact ext) (ho : copyTree n h r = some (.ok h', s))
    (hroom : s.Roomy) : s.Exact (plus ext [h']) := by
  induction n generalizing h h' r s ext with
  | zero => cases ho
  | succ n ih =>
    rw [Registry.copyTree] at ho
    split at ho
    · cases ho
    · split at ho
      · rename_i js t hjs
        have ht := he.arena.of_evolves (copyInputs_evolves (fun _ _ _ => copyTree_evolves n _ _) _ _ hjs)
        cases ho
        have hex := he.copyInputs (fun _ _ _ => copyTree_evolves n _ _) ih hjs (hroom.of_evolves ht (alloc_evolves _ _))
        exact Exact.alloc hex hroom
      · cases ho
      · cases ho

/-- The number of records in use whose definition is no later than `k`. -/
def rank (r : Registry) (k : KindId) : Nat := #{i ∈ range r.records.size | (r.held? i).any (·.kind ≤ k)}

theorem rank_lt {i : Nat} {k : KindId} (hx : r.held? i = some x) (hk : k < x.kind) : r.rank k < r.rank x.kind := by
  refine card_lt_card (ssubset_iff_of_subset ?_ |>.mpr ⟨i, ?_, ?_⟩)
  · intro j hj
    simp only [mem_filter, Option.any_eq_true, decide_eq_true_eq] at hj ⊢
    obtain ⟨hj, y, hy, hle⟩ := hj
    exact ⟨hj, y, hy, Nat.le_trans hle (Nat.le_of_lt hk)⟩
  · simp [hx, lt_size_of_held? hx]
  · simp [hx, hk]

theorem copyInputs_ok {copy : Copier} {is : List Input} {t : Registry}
    (hevolves : ∀ h r o, copy h r = some o → Evolves false false r o.2)
    (hcopy : ∀ c ∈ embedded is, ∀ {t}, Evolves false false r t → ∃ h' s, copy c t = some (.ok h', s))
    (ht : Evolves false false r t) : ∃ js s, copyInputs copy is t = some (.ok js, s) := by
  induction is generalizing t with
  | nil => exact ⟨_, _, rfl⟩
  | cons i rest ih =>
    rw [copyInputs]
    by_cases hz : i.child.isZero
    · obtain ⟨js, s, ho⟩ := ih (fun c hc => hcopy c (by simpa [embedded, hz] using hc)) ht
      simp [hz, ho]
    · have hi : i.child ∈ embedded (i :: rest) := by simp [embedded, hz]
      have hrest : ∀ c ∈ embedded rest, c ∈ embedded (i :: rest) := fun c hc => by
        simp only [embedded, List.map_cons, List.filter_cons, hz] at hc ⊢
        exact List.mem_cons_of_mem _ hc
      obtain ⟨c, s, hc⟩ := hcopy _ hi ht
      obtain ⟨js, u, ho⟩ := ih (fun c hc => hcopy c (hrest c hc)) (ht.trans (hevolves _ _ _ hc))
      simp [hz, hc, ho]

/-- What a definition in use embeds is in use and earlier, so a copy meets no stale handle and goes no deeper
    than there are records. -/
theorem Exact.copyTree_ok {n : Nat} (he : r.Exact ext) (hgrow : Evolves false false r s) (hx : r.holding? h = some x)
    (hn : r.rank x.kind < n) : ∃ h' t, Registry.copyTree n h s = some (.ok h', t) := by
  induction n generalizing h x s with
  | zero => omega
  | succ n ih =>
    have hy := (holding?_eq_some.mp hx).2.2
    have hd := definition?_grows he.arena hgrow (definition?_eq_some.mpr ⟨x, hx, rfl⟩)
    have hinputs : ∃ js t, Registry.copyInputs (Registry.copyTree n) (r.kind x.kind).inputs s = some (.ok js, t) := by
      refine copyInputs_ok (fun _ _ _ => copyTree_evolves n _ _) (fun c hc {t} ht => ?_) hgrow
      obtain ⟨y, hc', hlt⟩ := he.ordered hy c hc
      have hless := rank_lt hy hlt
      exact ih ht hc' (by omega)
    obtain ⟨js, t, ho⟩ := hinputs
    simp [Registry.copyTree, hd, ho]

theorem Exact.copyDefinition (he : r.Exact ext) (hx : r.holding? h = some x) :
    ∃ h', (r.copyDefinition h).1 = .ok h' ∧
      ((r.copyDefinition h).2.Roomy → (r.copyDefinition h).2.Exact (plus ext [h'])) := by
  have hrank : r.rank x.kind < r.records.size + 1 :=
    Nat.lt_succ_of_le ((card_filter_le _ _).trans (card_range _).le)
  obtain ⟨h', s, ho⟩ := he.copyTree_ok (.refl r) hx hrank
  rw [Registry.copyDefinition, ho, Option.getD_some]
  exact ⟨h', rfl, he.copyTree ho⟩

theorem copyDefinition_stale (hx : r.holding? h = none) : r.copyDefinition h = (.error (.stale h), r) := by
  simp [Registry.copyDefinition, Registry.copyTree, definition?, kind?, hx]

/-! ## Procedures -/

theorem Exact.addParameters {name : Text} {i : Nat} {ps : List Text} (he : r.Exact ext)
    (hroom : (r.addParameters name i ps).2.Roomy) :
    (r.addParameters name i ps).2.Exact (plus ext (embedded (r.addParameters name i ps).1)) := by
  induction ps generalizing i r ext with
  | nil => exact he.congr fun h _ => by simp [plus, Registry.addParameters, embedded]
  | cons p ps ih =>
    rw [Registry.addParameters] at hroom ⊢
    dsimp only at hroom ⊢
    generalize hd : ({ id := _, inputs := _, native := _, role := _ } : Definition) = d at hroom ⊢
    have hnone : d.children = [] := by
      subst hd
      rfl
    have he' : r.Exact (plus ext d.children) := he.congr fun h _ => by simp [plus, hnone]
    have hex := he'.alloc (hroom.of_evolves (he.arena.alloc d) (addParameters_evolves name (i + 1) ps _))
    refine (ih hex hroom).congr fun h hz => ?_
    simp only [plus, count_embedded_cons hz]
    omega

theorem Exact.newProcedure {name : Text} {ps : List Text} (he : r.Exact ext)
    (hroom : (r.newProcedure name ps).2.Roomy) :
    (r.newProcedure name ps).2.Exact (plus ext [(r.newProcedure name ps).1]) := by
  have hs := he.arena.of_evolves (addParameters_evolves name 0 ps r)
  have hex := he.addParameters (hroom.of_evolves hs (alloc_evolves _ _))
  exact Exact.alloc (hex.congr fun h hz => rfl) hroom

/-! ## The palette -/

/-- References from the palette are from outside. -/
theorem Exact.withPalette (he : r.Exact ext) (palette : List Handle) (terminator : Handle) :
    Exact { r with palette := palette, terminator := terminator } ext :=
  ⟨⟨he.arena.free_nodup, he.arena.mem_free, he.arena.counted, he.arena.known⟩, he.counts, he.ordered⟩

theorem Exact.register (he : r.Exact (plus ext d.children)) (hroom : (r.register d).2.Roomy) :
    (r.register d).2.Exact (plus ext [(r.register d).1]) := by
  have hd : ∀ b : Bool, (if b then { d with hidden := true } else d : Definition).children = d.children := by
    intro b
    cases b <;> rfl
  exact Exact.withPalette (Exact.alloc (he.congr fun h _ => by rw [plus, plus, hd]) ⟨hroom.unworn, hroom.size⟩) _ _

theorem Exact.unregister (he : r.Exact (plus ext [h])) (hz : h.generation ≠ 0) :
    ∃ n, (r.unregister h).1 = .ok n ∧ (r.unregister h).2.Exact ext := by
  obtain ⟨x, hx⟩ := he.holding hz (by simp only [plus, List.count_cons_self]; omega)
  rw [Registry.unregister, hx]
  exact (he.withPalette _ _).release hz

end

end BlockEngine.Registry
