/-
  BlockEngine.Proofs.Registry.Handles — what a handle addresses, over time.

  A handle is issued once its record was in use in its generation. A record's generation moves on when
  the record is freed; unless it comes around to zero, an issued handle is never issued again.

  Proved of every sequence of effects:
  - `generation_evolves`: the generation of a record moves on by one when it is freed, and only then.
  - `Later.of_evolves`: an issued handle addresses what it did or nothing, and nothing for good once its
    record was freed.
  - `exists_handle_of_evolves`, `Later.not_issued`: what is put to use has a handle, which was not issued
    before.
-/

import BlockEngine.Proofs.Registry.Arena

namespace BlockEngine.Registry

def inUse (r : Registry) : Nat := r.records.toList.countP (·.holding.isSome)

theorem inUse_eq (r : Registry) :
    r.inUse = (List.range r.records.size).countP fun i => (r.held? i).isSome := by
  have hr : r.records.toList.map some = (List.range r.records.size).map (r.records[·]?) := by
    apply List.ext_getElem?
    intro i
    by_cases hi : i < r.records.size <;> simp [hi]
  calc r.inUse = (r.records.toList.map some).countP fun x => (x.bind (·.holding)).isSome := by
        simp [inUse, List.countP_map, Function.comp_def]
    _ = _ := by
        rw [hr, List.countP_map]
        rfl

theorem toNat_toUInt32 {i : Nat} (hi : i < 2 ^ 32) : i.toUInt32.toNat = i := by
  simp only [Nat.toUInt32, UInt32.toNat_ofNat', Nat.mod_eq_of_lt hi]

/-- The free list has every record that is not in use, so `size` counts the others. -/
theorem Arena.size_eq {r : Registry} (ha : r.Arena) (hs : r.records.size ≤ 2 ^ 32) : r.size = r.inUse := by
  have hperm : (r.free.map UInt32.toNat).Perm
      ((List.range r.records.size).filter fun i => decide ¬(r.held? i).isSome) := by
    refine (List.perm_ext_iff_of_nodup ?_ (List.nodup_range.filter _)).mpr fun i => ?_
    · exact ha.free_nodup.map fun _ _ => UInt32.toNat_inj.mp
    · simp only [List.mem_map, List.mem_filter, List.mem_range, decide_eq_true_eq, Option.not_isSome_iff_eq_none]
      constructor
      · rintro ⟨j, hj, rfl⟩
        exact (ha.mem_free j).mp hj
      · rintro ⟨hi, hu⟩
        have hj := toNat_toUInt32 (Nat.lt_of_lt_of_le hi hs)
        exact ⟨i.toUInt32, (ha.mem_free _).mpr (hj.symm ▸ ⟨hi, hu⟩), hj⟩
  have hfree := hperm.length_eq
  rw [List.length_map, ← List.countP_eq_length_filter] at hfree
  have hall := (List.range r.records.size).length_eq_countP_add_countP fun i => (r.held? i).isSome
  rw [List.length_range] at hall
  rw [size, hfree, inUse_eq]
  omega

/-! ## Generations -/

/-- No record's generation has come around. -/
def Unworn (r : Registry) : Prop := ∀ i, r.generation i ≠ 0

/-- Handles have not run out: every record has a number and a generation that a handle can have. -/
structure Roomy (r : Registry) : Prop where
  unworn : r.Unworn
  size : r.records.size ≤ 2 ^ 32

def Freed (r s : Registry) (i : Nat) : Prop := (r.held? i).isSome ∧ (s.held? i).isNone

instance (r s : Registry) (i : Nat) : Decidable (Freed r s i) := inferInstanceAs (Decidable (_ ∧ _))

section

variable {frees lists : Bool} {r s t : Registry} {h : Handle} {x : Holding}

/-- What can become of the record `i`: it keeps its generation and stays as it is, or is put to use; or it
    is freed and its generation moves on. -/
def Turns (frees : Bool) (r s : Registry) (i : Nat) : Prop :=
  (s.generation i = r.generation i ∧
    ((s.held? i).isSome = (r.held? i).isSome ∨ frees = false ∧ (s.held? i).isSome)) ∨
  (frees = true ∧ Freed r s i ∧ s.generation i = r.generation i + 1 ∧ r.generation i ≠ 0)

theorem turns_of_effect (ha : r.Arena) (he : Effect frees lists r s) (i : Nat) : Turns frees r s i := by
  cases he with
  | alloc d hf =>
    obtain ⟨j, hp⟩ := ha.placed d
    refine .inl ⟨congrFun hp.generation i, ?_⟩
    by_cases hij : i = j <;> simp [hp.held, hij, hf]
  | @count h x n hx hn =>
    refine .inl ⟨congrFun (generation_setRefs n hx) i, .inl ?_⟩
    by_cases hij : i = h.index.toNat <;> simp [held?_setRefs n hx, hij, (holding?_eq_some.mp hx).2.2]
  | @free h x hf hx =>
    obtain ⟨hz, hg, hy⟩ := holding?_eq_some.mp hx
    by_cases hij : i = h.index.toNat
    · subst hij
      exact .inr ⟨hf, by simp [Freed, held?_freeRecord hx, hy], by simp [generation_freeRecord hx, hg], hg ▸ hz⟩
    · exact .inl (by simp [generation_freeRecord hx, held?_freeRecord hx, hij])
  | list => exact .inl ⟨rfl, .inl rfl⟩

theorem Turns.trans {i : Nat} (h : Turns frees r s i) (h' : Turns frees s t i) : Turns frees r t i := by
  unfold Turns Freed at *
  cases frees <;> cases hr : (r.held? i) <;> cases hs : (s.held? i) <;> cases ht : (t.held? i) <;>
    simp_all

theorem turns_of_evolves (ha : r.Arena) (he : Evolves frees lists r s) (i : Nat) : Turns frees r s i := by
  induction he with
  | refl => exact .inl ⟨rfl, .inl rfl⟩
  | tail he hlast ih => exact ih.trans (turns_of_effect (ha.of_evolves he) hlast i)

theorem generation_evolves (ha : r.Arena) (he : Evolves frees lists r s) (i : Nat) :
    s.generation i = r.generation i + if Freed r s i then 1 else 0 := by
  rcases turns_of_evolves ha he i with ⟨hg, hu⟩ | ⟨-, hf, hg, -⟩
  · have hnot : ¬Freed r s i := by
      rintro ⟨hr, hs⟩
      cases hs' : s.held? i <;> simp_all
    simp [hnot, hg]
  · simp [hf, hg]

/-- A generation that has come around stays: a record without a handle is never freed. -/
theorem Unworn.of_evolves (ha : r.Arena) (he : Evolves frees lists r s) (hs : s.Unworn) : r.Unworn := by
  intro i
  rcases turns_of_evolves ha he i with ⟨hg, -⟩ | ⟨-, -, -, hz⟩
  · exact hg ▸ hs i
  · exact hz

/-! ## Issued handles -/

theorem kind?_eq_some {k : KindId} : r.kind? h = some k ↔ ∃ x, r.holding? h = some x ∧ x.kind = k := by
  simp [kind?]

theorem kind?_eq_none : r.kind? h = none ↔ r.holding? h = none := by simp [kind?]

/-- The handle was handed out: its record is in use in its generation, or has left it behind. -/
def Issued (r : Registry) (h : Handle) : Prop :=
  h.generation ≠ 0 ∧
    (h.generation < r.generation h.index.toNat ∨
      h.generation = r.generation h.index.toNat ∧ (r.held? h.index.toNat).isSome)

theorem Issued.of_holding (hx : r.holding? h = some x) : r.Issued h := by
  obtain ⟨hz, hg, hy⟩ := holding?_eq_some.mp hx
  exact ⟨hz, .inr ⟨hg.symm, by simp [hy]⟩⟩

/-- Handles that were handed out in `r` are so in `s`, and address there what they do in `r`, if anything. -/
structure Later (r s : Registry) : Prop where
  issued : ∀ {h}, r.Issued h → s.Issued h
  kind : ∀ {h k}, r.Issued h → s.kind? h = some k → r.kind? h = some k

theorem Later.refl (r : Registry) : Later r r := ⟨id, fun _ hk => hk⟩

theorem Later.trans (hrs : Later r s) (hst : Later s t) : Later r t :=
  ⟨fun hi => hst.issued (hrs.issued hi), fun hi hk => hrs.kind hi (hst.kind (hrs.issued hi) hk)⟩

/-- A generation moves up unless it comes around. -/
theorem lt_add_one_of_ne_zero {g : UInt32} (hg : g + 1 ≠ 0) : g < g + 1 := by
  rw [UInt32.lt_iff_toNat_lt, UInt32.toNat_add]
  have hlt := g.toNat_lt
  have hne : g.toNat + 1 ≠ 2 ^ 32 := by
    intro he
    apply hg
    rw [← UInt32.toNat_inj, UInt32.toNat_add]
    simp [he]
  rw [UInt32.toNat_one, Nat.mod_eq_of_lt (by omega)]
  omega

theorem Later.alloc (ha : r.Arena) (d : Definition) : Later r (r.alloc d).2 := by
  obtain ⟨i, hp⟩ := ha.placed d
  generalize (r.alloc d).2 = s at hp ⊢
  refine ⟨fun {h} hi => ⟨hi.1, ?_⟩, fun {h k} hi hk => ?_⟩
  · rw [hp.generation, hp.held]
    refine hi.2.imp_right (And.imp_right fun hu => ?_)
    by_cases hij : h.index.toNat = i <;> simp [hij, hu]
  · obtain ⟨x, hx, rfl⟩ := kind?_eq_some.mp hk
    obtain ⟨hz, hg, hy⟩ := holding?_eq_some.mp hx
    rw [hp.generation] at hg
    rw [hp.held] at hy
    -- the record that was put to use has no issued handle in its generation
    have hij : h.index.toNat ≠ i := by
      rintro rfl
      rcases hi.2 with hlt | ⟨-, hu⟩
      · exact (UInt32.ne_of_lt hlt) hg.symm
      · simp [hp.unused] at hu
    rw [Function.update_of_ne hij] at hy
    exact kind?_eq_some.mpr ⟨x, holding?_eq_some.mpr ⟨hz, hg, hy⟩, rfl⟩

theorem Later.setRefs (hx : r.holding? h = some x) (n : Nat) : Later r (r.setRefs h x n) := by
  obtain ⟨-, -, hy⟩ := holding?_eq_some.mp hx
  refine ⟨fun {h'} hi => ⟨hi.1, ?_⟩, fun {h' k} hi hk => ?_⟩
  · rw [generation_setRefs n hx, held?_setRefs n hx]
    refine hi.2.imp_right (And.imp_right fun hu => ?_)
    by_cases hij : h'.index.toNat = h.index.toNat <;> simp [hij, hu]
  · obtain ⟨y, hy', rfl⟩ := kind?_eq_some.mp hk
    obtain ⟨hz, hg, hu⟩ := holding?_eq_some.mp hy'
    rw [generation_setRefs n hx] at hg
    rw [held?_setRefs n hx] at hu
    by_cases hij : h'.index.toNat = h.index.toNat
    · rw [hij, Function.update_self] at hu
      cases hu
      exact kind?_eq_some.mpr ⟨x, holding?_eq_some.mpr ⟨hz, hg, hij ▸ hy⟩, rfl⟩
    · rw [Function.update_of_ne hij] at hu
      exact kind?_eq_some.mpr ⟨y, holding?_eq_some.mpr ⟨hz, hg, hu⟩, rfl⟩

theorem Later.freeRecord (hx : r.holding? h = some x) (hw : (r.freeRecord h).Unworn) :
    Later r (r.freeRecord h) := by
  obtain ⟨-, hg, hy⟩ := holding?_eq_some.mp hx
  have hgen := generation_freeRecord hx
  have hheld := held?_freeRecord hx
  refine ⟨fun {h'} hi => ⟨hi.1, ?_⟩, fun {h' k} hi hk => ?_⟩
  · by_cases hij : h'.index.toNat = h.index.toNat
    · left
      have hne := hw h.index.toNat
      rw [hgen, Function.update_self] at hne
      have hlt := lt_add_one_of_ne_zero hne
      rw [hgen, hij, Function.update_self]
      rcases hi.2 with hi | ⟨hi, -⟩
      · exact UInt32.lt_trans (by rwa [hij, hg] at hi) hlt
      · rwa [hi, hij, hg]
    · rw [hgen, hheld, Function.update_of_ne hij, Function.update_of_ne hij]
      exact hi.2
  · obtain ⟨y, hy', rfl⟩ := kind?_eq_some.mp hk
    obtain ⟨hz, hg', hu⟩ := holding?_eq_some.mp hy'
    rw [hheld] at hu
    rw [hgen] at hg'
    by_cases hij : h'.index.toNat = h.index.toNat
    · simp [hij] at hu
    · rw [Function.update_of_ne hij] at hu hg'
      exact kind?_eq_some.mpr ⟨y, holding?_eq_some.mpr ⟨hz, hg', hu⟩, rfl⟩

theorem Later.of_effect (ha : r.Arena) (he : Effect frees lists r s) (hw : s.Unworn) : Later r s := by
  cases he with
  | alloc d => exact .alloc ha d
  | count n hx => exact .setRefs hx n
  | free _ hx => exact .freeRecord hx hw
  | list => exact ⟨id, fun _ hk => hk⟩

theorem Later.of_evolves (ha : r.Arena) (he : Evolves frees lists r s) (hw : s.Unworn) : Later r s := by
  induction he with
  | refl => exact .refl r
  | tail he hlast ih =>
    have hb := ha.of_evolves he
    exact (ih (hw.of_evolves hb (.one hlast))).trans (.of_effect hb hlast hw)

/-! ## New handles -/

/-- The handle of a record that was not in use addresses what was put there. -/
theorem Placed.index {d : Definition} {i : Nat} (hp : Placed r d i h s) (hroom : s.Roomy) :
    h.index.toNat = i := by
  rw [hp.handle]
  exact toNat_toUInt32 (Nat.lt_of_lt_of_le hp.lt_size hroom.size)

theorem Placed.addressed {d : Definition} {i : Nat} (hp : Placed r d i h s) (hroom : s.Roomy) :
    s.holding? h = some ⟨r.kinds.size, 1⟩ := by
  have hi := hp.index hroom
  have hg : h.generation = r.generation i := by rw [hp.handle]
  rw [holding?_eq_some, hi, hp.held, hg, ← hp.generation]
  exact ⟨hroom.unworn i, rfl, Function.update_self ..⟩

theorem alloc_kinds (d : Definition) (r : Registry) : (r.alloc d).2.kinds = r.kinds.push d := by
  unfold alloc
  cases r.free <;> rfl

theorem size_le_of_effect (he : Effect frees lists r s) : r.records.size ≤ s.records.size := by
  cases he with
  | alloc d =>
    unfold alloc
    cases r.free <;> simp
  | count => exact Nat.le_of_eq Array.size_setIfInBounds.symm
  | free => exact Nat.le_of_eq Array.size_setIfInBounds.symm
  | list => exact Nat.le_refl _

theorem size_le_of_evolves (he : Evolves frees lists r s) : r.records.size ≤ s.records.size := by
  induction he with
  | refl => exact Nat.le_refl _
  | tail _ hlast ih => exact Nat.le_trans ih (size_le_of_effect hlast)

/-- What is used up stays so. -/
theorem Roomy.of_evolves (ha : r.Arena) (he : Evolves frees lists r s) (hs : s.Roomy) : r.Roomy :=
  ⟨hs.unworn.of_evolves ha he, Nat.le_trans (size_le_of_evolves he) hs.size⟩

/-- Definitions are numbered for good. -/
theorem kinds_evolves (he : Evolves frees lists r s) : ∃ more, s.kinds = r.kinds ++ more := by
  induction he with
  | refl => exact ⟨#[], Array.append_empty.symm⟩
  | tail _ hlast ih =>
    obtain ⟨more, hm⟩ := ih
    cases hlast with
    | alloc d =>
      refine ⟨more.push d, ?_⟩
      rw [alloc_kinds, hm, Array.append_push]
    | count => exact ⟨more, hm⟩
    | free => exact ⟨more, hm⟩
    | list => exact ⟨more, hm⟩

theorem kinds_of_frees (he : Evolves true lists r s) : s.kinds = r.kinds := by
  induction he with
  | refl => rfl
  | tail _ hlast ih =>
    cases hlast with
    | alloc d hf => cases hf
    | count => exact ih
    | free => exact ih
    | list => exact ih

theorem kinds_le_of_evolves (he : Evolves frees lists r s) : r.kinds.size ≤ s.kinds.size := by
  obtain ⟨more, hm⟩ := kinds_evolves he
  rw [hm, Array.size_append]
  exact Nat.le_add_right _ _

/-- Nothing goes out of use where nothing is freed. -/
theorem kind?_effect (ha : r.Arena) (he : Effect false lists r s) {k : KindId} (hk : r.kind? h = some k) :
    s.kind? h = some k := by
  obtain ⟨x, hx, rfl⟩ := kind?_eq_some.mp hk
  obtain ⟨hz, hg, hy⟩ := holding?_eq_some.mp hx
  cases he with
  | alloc d =>
    obtain ⟨i, hp⟩ := ha.placed d
    have hij : h.index.toNat ≠ i := by
      rintro rfl
      simp [hp.unused] at hy
    refine kind?_eq_some.mpr ⟨x, holding?_eq_some.mpr ⟨hz, hp.generation ▸ hg, ?_⟩, rfl⟩
    rw [hp.held, Function.update_of_ne hij, hy]
  | @count h' x' n hx' =>
    rw [kind?_eq_some]
    simp only [holding?_eq_some, generation_setRefs n hx', held?_setRefs n hx']
    obtain ⟨-, -, hy'⟩ := holding?_eq_some.mp hx'
    by_cases hij : h.index.toNat = h'.index.toNat
    · rw [hij, hy'] at hy
      cases hy
      exact ⟨⟨x.kind, n⟩, ⟨hz, hg, by rw [hij, Function.update_self]⟩, rfl⟩
    · exact ⟨x, ⟨hz, hg, by rw [Function.update_of_ne hij, hy]⟩, rfl⟩
  | free hf => cases hf
  | list => exact hk

theorem kind?_grows (ha : r.Arena) (he : Evolves false lists r s) {k : KindId} (hk : r.kind? h = some k) :
    s.kind? h = some k := by
  induction he with
  | refl => exact hk
  | tail he hlast ih => exact kind?_effect (ha.of_evolves he) hlast ih

/-- Definitions are numbered as they are put to use, and then have a handle. -/
theorem exists_handle_of_evolves (ha : r.Arena) (he : Evolves frees lists r s) (hroom : s.Roomy) {k : Nat}
    (hk : r.kinds.size ≤ k) (hk' : k < s.kinds.size) : ∃ h, s.kind? h = some k := by
  cases frees with
  | true =>
    rw [kinds_of_frees he] at hk'
    omega
  | false =>
    induction he with
    | refl => omega
    | @tail s t he hlast ih =>
      have hs := ha.of_evolves he
      by_cases hold : k < s.kinds.size
      · obtain ⟨h, hh⟩ := ih (hroom.of_evolves hs (.one hlast)) hold
        exact ⟨h, kind?_effect hs hlast hh⟩
      · cases hlast with
        | alloc d =>
          obtain ⟨i, hp⟩ := hs.placed d
          rw [hp.kinds, Array.size_push] at hk'
          have hlast : k = s.kinds.size := by omega
          exact ⟨_, kind?_eq_some.mpr ⟨_, hp.addressed hroom, hlast.symm⟩⟩
        | free hf => cases hf
        | count => exact absurd hk' hold
        | list => exact absurd hk' hold

/-- A handle that addresses what was put to use since was not issued before. -/
theorem Later.not_issued (ha : r.Arena) (hl : Later r s) {k : Nat} (hk : r.kinds.size ≤ k)
    (hh : s.kind? h = some k) : ¬r.Issued h := by
  intro hi
  obtain ⟨x, hx, rfl⟩ := kind?_eq_some.mp (hl.kind hi hh)
  exact absurd (ha.known (holding?_eq_some.mp hx).2.2) (Nat.not_lt.mpr hk)

end

end BlockEngine.Registry
