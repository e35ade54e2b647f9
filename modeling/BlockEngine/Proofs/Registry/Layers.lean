/-
  BlockEngine.Proofs.Registry.Layers — definitions embed what was handed out before them.

  Definitions are numbered as they are put to use. In a `Layered` registry each one embeds only handles that were
  handed out, and what such a handle still addresses has a smaller number. This needs no counts: handles may be
  stale, and be embedded by callers that hold no reference. It lasts as long as no generation comes around.

  Proved:
  - `Placed.issued`: the handle of a new definition was handed out, even if there are more records than numbers.
  - `Layers`: what registries do leaves them layered, if what callers embed was handed out to them.
  - `Layered.acyclic`: nothing is embedded below itself.
  - `Layered.copyTree_total`: copying goes no deeper than there are records, whatever is stale below.
  - `copyTree_apart`: all of a copy is in records that were not in use before.
-/

import BlockEngine.Proofs.Registry.Failing

namespace BlockEngine.Registry

open Relation

variable {frees lists : Bool} {r s t : Registry} {h k : Handle} {x : Holding} {d : Definition}

/-! ## Handed out -/

/-- The handle of a new definition was handed out. Where there are more records than numbers, it is that of a
    record in use. -/
theorem Placed.issued {i : Nat} (ha : r.Arena) (hp : Placed r d i h s) (hw : s.Unworn) : s.Issued h := by
  have hgen : h.generation = s.generation i := by rw [hp.handle, hp.generation]
  have hindex : h.index = i.toUInt32 := by rw [hp.handle]
  by_cases hi : i < 2 ^ 32
  · have hnat : h.index.toNat = i := by rw [hindex, toNat_toUInt32 hi]
    refine ⟨hgen ▸ hw i, .inr ⟨by rw [hnat, hgen], ?_⟩⟩
    rw [hnat, hp.held, Function.update_self]
    rfl
  · rcases hp.next with ⟨-, hlt, -, -⟩ | ⟨hfree, -, hsize, -⟩
    · exact absurd hlt hi
    -- nothing was free, so the record that the number comes around to is in use
    · have hlt : h.index.toNat < r.records.size := by
        have hbound := h.index.toNat_lt
        omega
      have hused : r.held? h.index.toNat ≠ none := by
        intro hnone
        have hmem := (ha.mem_free h.index).mpr ⟨hlt, hnone⟩
        rw [hfree] at hmem
        cases hmem
      have hone : h.generation = 1 := by
        rw [hp.handle]
        simp [Registry.generation, hsize]
      have hne : h.index.toNat ≠ i := by omega
      refine ⟨by rw [hone]; decide, ?_⟩
      rw [hp.held, Function.update_of_ne hne, hone]
      have hg : (s.generation h.index.toNat).toNat ≠ 0 := fun hz => hw h.index.toNat (UInt32.toNat_inj.mp hz)
      by_cases heq : s.generation h.index.toNat = 1
      · exact .inr ⟨heq.symm, Option.isSome_iff_ne_none.mpr hused⟩
      · left
        have hne' : (s.generation h.index.toNat).toNat ≠ 1 := fun h1 => heq (UInt32.toNat_inj.mp h1)
        rw [UInt32.lt_iff_toNat_lt]
        show 1 < _
        omega

/-! ## Layers -/

/-- Definitions in use embed what was handed out, and what they embed is earlier if it is in use. -/
def Layered (r : Registry) : Prop :=
  ∀ i x, r.held? i = some x → ∀ c ∈ (r.kind x.kind).children, r.Issued c ∧ ∀ k, r.kind? c = some k → k < x.kind

theorem Layered.new : Layered {} := by simp [Layered, held?]

/-- What is left in use, and was handed out before. -/
theorem Layered.of_later (hl : r.Layered) (hlater : Later r s) (hkinds : s.kinds = r.kinds)
    (hheld : ∀ {i x}, s.held? i = some x → ∃ y, r.held? i = some y ∧ y.kind = x.kind) : s.Layered := by
  intro i x hx c hc
  obtain ⟨y, hy, hkind⟩ := hheld hx
  have hsame : s.kind x.kind = r.kind y.kind := by rw [kind, kind, hkinds, hkind]
  rw [hsame] at hc
  obtain ⟨hissued, hless⟩ := hl _ y hy c hc
  exact ⟨hlater.issued hissued, fun k hk => hkind ▸ hless k (hlater.kind hissued hk)⟩

theorem Layered.alloc (hl : r.Layered) (ha : r.Arena) (hd : ∀ c ∈ d.children, r.Issued c) : (r.alloc d).2.Layered := by
  obtain ⟨i, hp⟩ := ha.placed d
  have hlater := Later.alloc ha d
  generalize (r.alloc d).2 = s at hp hlater ⊢
  intro j x hx c hc
  rw [hp.held] at hx
  by_cases hj : j = i
  · rw [hj, Function.update_self] at hx
    cases hx
    rw [kind_push_size hp.kinds] at hc
    refine ⟨hlater.issued (hd c hc), fun k hk => ?_⟩
    obtain ⟨y, hy, rfl⟩ := kind?_eq_some.mp (hlater.kind (hd c hc) hk)
    exact ha.known (holding?_eq_some.mp hy).2.2
  · rw [Function.update_of_ne hj] at hx
    rw [kind_push hp.kinds (ha.known hx)] at hc
    obtain ⟨hissued, hless⟩ := hl j x hx c hc
    exact ⟨hlater.issued hissued, fun k hk => hless k (hlater.kind hissued hk)⟩

theorem Layered.setRefs (hl : r.Layered) (hx : r.holding? h = some x) (n : Nat) : (r.setRefs h x n).Layered := by
  refine hl.of_later (.setRefs hx n) rfl fun {i y} hy => ?_
  rw [held?_setRefs n hx] at hy
  by_cases hi : i = h.index.toNat
  · rw [hi, Function.update_self] at hy
    cases hy
    exact ⟨x, hi ▸ (holding?_eq_some.mp hx).2.2, rfl⟩
  · rw [Function.update_of_ne hi] at hy
    exact ⟨y, hy, rfl⟩

theorem Layered.freeRecord (hl : r.Layered) (hx : r.holding? h = some x) (hw : (r.freeRecord h).Unworn) :
    (r.freeRecord h).Layered := by
  refine hl.of_later (.freeRecord hx hw) rfl fun {i y} hy => ?_
  rw [held?_freeRecord hx] at hy
  by_cases hi : i = h.index.toNat
  · rw [hi, Function.update_self] at hy
    cases hy
  · rw [Function.update_of_ne hi] at hy
    exact ⟨y, hy, rfl⟩

/-- Where nothing is put to use, layers stay. -/
theorem Layered.of_frees (hl : r.Layered) (ha : r.Arena) (he : Evolves true lists r s) (hw : s.Unworn) : s.Layered := by
  induction he with
  | refl => exact hl
  | tail he hlast ih =>
    have hb := ha.of_evolves he
    have hlayered := ih (hw.of_evolves hb (.one hlast))
    cases hlast with
    | alloc d hf => cases hf
    | count n hx => exact hlayered.setRefs hx n
    | free _ hx => exact hlayered.freeRecord hx hw
    | list => exact hlayered

/-- Definitions are put to use, and they embed what was handed out by then. -/
structure Layers (r s : Registry) : Prop where
  evolves : Evolves false true r s
  layered : r.Arena → s.Unworn → r.Layered → s.Layered

theorem Layers.refl (r : Registry) : Layers r r := ⟨.refl r, fun _ _ hl => hl⟩

theorem Layers.trans (hrs : Layers r s) (hst : Layers s t) : Layers r t where
  evolves := hrs.evolves.trans hst.evolves
  layered ha hw hl := by
    have hs := ha.of_evolves hrs.evolves
    exact hst.layered hs hw (hrs.layered ha (hw.of_evolves hs hst.evolves) hl)

theorem Layers.retain (h : Handle) (r : Registry) : Layers r (r.retain h).2 := by
  refine ⟨(retain_evolves false h r).listing, fun _ _ hl => ?_⟩
  unfold Registry.retain
  split
  · exact hl
  · exact hl.setRefs ‹_› _

/-- One more definition, which embeds what was handed out by then. -/
theorem Layers.alloc (hrs : Layers r s) (hd : r.Arena → s.Unworn → ∀ c ∈ d.children, s.Issued c) :
    Layers r (s.alloc d).2 where
  evolves := hrs.evolves.trans (alloc_evolves d s).listing
  layered ha hw hl := by
    have hs := ha.of_evolves hrs.evolves
    have hsw := hw.of_evolves hs (alloc_evolves d s)
    exact (hrs.layered ha hsw hl).alloc hs (hd ha hsw)

/-- One more definition that embeds none. -/
theorem Layers.alloc_plain (hd : d.children = []) : Layers r (r.alloc d).2 :=
  (Layers.refl r).alloc fun _ _ c hc => by simp [hd] at hc

theorem alloc_issued (ha : r.Arena) (hw : (r.alloc d).2.Unworn) : (r.alloc d).2.Issued (r.alloc d).1 := by
  obtain ⟨i, hp⟩ := ha.placed d
  exact hp.issued ha hw

theorem Layers.register (hd : r.Arena → ∀ c ∈ d.children, r.Issued c) : Layers r (r.register d).2 := by
  refine ⟨register_evolves d r, fun ha _ hl => ?_⟩
  have hchildren : ∀ b : Bool, (if b then { d with hidden := true } else d : Definition).children = d.children := by
    intro b
    cases b <;> rfl
  let implicit := d.type == .terminator && r.terminator.isZero
  have hlayered := hl.alloc ha (d := if implicit then { d with hidden := true } else d) fun c hc =>
    hd ha c (hchildren _ ▸ hc)
  exact hlayered

/-- What was handed out stays so while records are put to use. -/
theorem Issued.layers (hi : r.Issued h) (ha : r.Arena) (hl : Layers r s) (hw : s.Unworn) : s.Issued h :=
  (Later.of_evolves ha hl.evolves hw).issued hi

/-! ## Procedures -/

theorem mem_embedded_cons {i : Input} {is : List Input} {c : Handle} (hc : c ∈ embedded (i :: is)) :
    c = i.child ∨ c ∈ embedded is := by
  simp only [embedded, List.map_cons, List.filter_cons] at hc ⊢
  split at hc
  · exact List.mem_cons.mp hc
  · exact .inr hc

theorem addParameters_layers (name : Text) (i : Nat) (ps : List Text) (r : Registry) :
    Layers r (r.addParameters name i ps).2 ∧ (r.Arena → (r.addParameters name i ps).2.Unworn →
      ∀ c ∈ embedded (r.addParameters name i ps).1, (r.addParameters name i ps).2.Issued c) := by
  induction ps generalizing i r with
  | nil => exact ⟨.refl r, by simp [addParameters, embedded]⟩
  | cons p ps ih =>
    rw [addParameters]
    dsimp only
    generalize hd : ({ id := _, inputs := _, native := _, role := _ } : Definition) = d
    have hnone : d.children = [] := by
      subst hd
      rfl
    have halloc : Layers r (r.alloc d).2 := .alloc_plain hnone
    obtain ⟨hrest, hissued⟩ := ih (i + 1) (r.alloc d).2
    refine ⟨halloc.trans hrest, fun ha hw c hc => ?_⟩
    have hs := ha.alloc d
    have hsw := hw.of_evolves hs hrest.evolves
    rcases mem_embedded_cons hc with rfl | hc
    · exact (alloc_issued ha hsw).layers hs hrest hw
    · exact hissued hs hw c hc

theorem Layers.newProcedure (name : Text) (ps : List Text) (r : Registry) : Layers r (r.newProcedure name ps).2 := by
  obtain ⟨hparams, hissued⟩ := addParameters_layers name 0 ps r
  exact hparams.alloc hissued

/-! ## Copies -/

theorem copyInputs_layers {copy : Copier} {is : List Input} {o : Except Error (List Input) × Registry}
    (hcopy : ∀ {h r o}, copy h r = some o →
      Layers r o.2 ∧ ∀ h', o.1 = .ok h' → r.Arena → o.2.Unworn → o.2.Issued h')
    (ho : copyInputs copy is r = some o) :
    Layers r o.2 ∧ ∀ js, o.1 = .ok js → r.Arena → o.2.Unworn → ∀ c ∈ embedded js, o.2.Issued c := by
  induction is generalizing r o with
  | nil =>
    cases ho
    refine ⟨.refl r, fun js hjs => ?_⟩
    cases hjs
    simp [embedded]
  | cons i rest ih =>
    rw [copyInputs] at ho
    split at ho
    · rename_i hz
      split at ho
      · rename_i ks t hks
        obtain ⟨hlayers, hissued⟩ := ih hks
        cases ho
        refine ⟨hlayers, fun js hjs ha hw c hc => ?_⟩
        cases hjs
        have hc : c ∈ embedded ks := by simpa [embedded, hz] using hc
        exact hissued ks rfl ha hw c hc
      · rename_i hno
        obtain ⟨hlayers, -⟩ := ih ho
        refine ⟨hlayers, fun js hjs => ?_⟩
        obtain ⟨o₁, o₂⟩ := o
        cases hjs
        exact absurd ho (hno _ _)
    · split at ho
      · rename_i c t hchild
        obtain ⟨hfirst, hnew⟩ := hcopy hchild
        split at ho
        · rename_i ks u hks
          obtain ⟨hlayers, hissued⟩ := ih hks
          cases ho
          refine ⟨hfirst.trans hlayers, fun js hjs ha hw b hb => ?_⟩
          cases hjs
          have ht := ha.of_evolves hfirst.evolves
          rcases mem_embedded_cons hb with rfl | hb
          · exact (hnew _ rfl ha (hw.of_evolves ht hlayers.evolves)).layers ht hlayers hw
          · exact hissued ks rfl ht hw b hb
        · rename_i hno
          obtain ⟨hlayers, -⟩ := ih ho
          refine ⟨hfirst.trans hlayers, fun js hjs => ?_⟩
          obtain ⟨o₁, o₂⟩ := o
          cases hjs
          exact absurd ho (hno _ _)
      · rename_i hchild
        obtain ⟨hlayers, -⟩ := hcopy hchild
        cases ho
        exact ⟨hlayers, fun js hjs => by cases hjs⟩
      · cases ho

theorem copyTree_layers {n : Nat} {o : Except Error Handle × Registry} (ho : copyTree n h r = some o) :
    Layers r o.2 ∧ ∀ h', o.1 = .ok h' → r.Arena → o.2.Unworn → o.2.Issued h' := by
  induction n generalizing h r o with
  | zero => cases ho
  | succ n ih =>
    rw [copyTree] at ho
    split at ho
    · cases ho
      exact ⟨.refl r, fun h' hh => by cases hh⟩
    · split at ho
      · rename_i js t hjs
        obtain ⟨hlayers, hissued⟩ := copyInputs_layers ih hjs
        cases ho
        refine ⟨hlayers.alloc (hissued js rfl), fun h' hh ha hw => ?_⟩
        cases hh
        exact alloc_issued (ha.of_evolves hlayers.evolves) hw
      · rename_i hjs
        obtain ⟨hlayers, -⟩ := copyInputs_layers ih hjs
        cases ho
        exact ⟨hlayers, fun h' hh => by cases hh⟩
      · cases ho

theorem Layers.copyDefinition (h : Handle) (r : Registry) : Layers r (r.copyDefinition h).2 := by
  unfold Registry.copyDefinition
  cases ho : copyTree (r.records.size + 1) h r with
  | none => exact .refl r
  | some o => exact (copyTree_layers ho).1

/-! ## What layers are good for -/

/-- What is below a definition is earlier, if it is in use. -/
theorem Layered.below_lt (hl : r.Layered) (hb : r.Below h k) {j : KindId} (hj : r.kind? k = some j) :
    ∃ i, r.kind? h = some i ∧ j < i := by
  have hstep : ∀ {h k : Handle} {j : KindId}, r.Embeds h k → r.kind? k = some j → ∃ i, r.kind? h = some i ∧ j < i := by
    rintro h k j ⟨d, hd, hk⟩ hj
    obtain ⟨x, hx, rfl⟩ := definition?_eq_some.mp hd
    obtain ⟨-, hless⟩ := hl _ x (holding?_eq_some.mp hx).2.2 k hk
    exact ⟨x.kind, kind?_eq_some.mpr ⟨x, hx, rfl⟩, hless j hj⟩
  induction hb generalizing j with
  | single hk => exact hstep hk hj
  | tail _ hk ih =>
    obtain ⟨m, hm, hlt⟩ := hstep hk hj
    obtain ⟨i, hi, hlt'⟩ := ih hm
    exact ⟨i, hi, Nat.lt_trans hlt hlt'⟩

/-- Nothing is embedded below itself. -/
theorem Layered.acyclic (hl : r.Layered) (h : Handle) : ¬ r.Below h h := by
  intro hb
  obtain ⟨c, ⟨d, hd, -⟩, -⟩ := TransGen.head'_iff.mp hb
  obtain ⟨x, hx, -⟩ := definition?_eq_some.mp hd
  have hkind := kind?_eq_some.mpr ⟨x, hx, rfl⟩
  obtain ⟨i, hi, hlt⟩ := hl.below_lt hb hkind
  cases hkind.symm.trans hi
  exact Nat.lt_irrefl _ hlt

/-- Where nothing is freed, no generation moves on. -/
theorem Unworn.grows (ha : r.Arena) (he : Evolves false lists r s) (hw : r.Unworn) : s.Unworn := by
  intro i
  rcases turns_of_evolves ha he i with ⟨hg, -⟩ | ⟨hf, -⟩
  · rw [hg]
    exact hw i
  · cases hf

/-- Where nothing is freed, what is not in use was not before. -/
theorem unused_of_grows (ha : r.Arena) (he : Evolves false lists r s) {i : Nat} (hi : s.held? i = none) :
    r.held? i = none := by
  rcases turns_of_evolves ha he i with ⟨-, hsame | ⟨-, hused⟩⟩ | ⟨hf, -⟩
  · rw [hi] at hsame
    exact Option.isNone_iff_eq_none.mp (by simpa using hsame.symm)
  · rw [hi] at hused
    cases hused
  · cases hf

theorem rank_pos {i : Nat} (hx : r.held? i = some x) : 0 < r.rank x.kind := by
  refine Finset.card_pos.mpr ⟨i, ?_⟩
  simp [hx, lt_size_of_held? hx]

/-! ### Copying comes to an end -/

theorem copyInputs_total {copy : Copier} {is : List Input}
    (hevolves : ∀ h r o, copy h r = some o → Evolves false false r o.2)
    (hcopy : ∀ c ∈ embedded is, ∀ {t}, Evolves false false r t → ∃ o, copy c t = some o)
    (hs : Evolves false false r s) : ∃ o, copyInputs copy is s = some o := by
  induction is generalizing s with
  | nil => exact ⟨_, rfl⟩
  | cons i rest ih =>
    rw [copyInputs]
    by_cases hz : i.child.isZero
    · obtain ⟨⟨_ | js, t⟩, ho⟩ := ih (fun c hc => hcopy c (by simpa [embedded, hz] using hc)) hs
      all_goals simp [hz, ho]
    · have hi : i.child ∈ embedded (i :: rest) := by simp [embedded, hz]
      have hrest : ∀ c ∈ embedded rest, c ∈ embedded (i :: rest) := by
        intro c hc
        simp only [embedded, List.map_cons, List.filter_cons, hz] at hc ⊢
        exact List.mem_cons_of_mem _ hc
      obtain ⟨⟨_ | c, t⟩, hc⟩ := hcopy _ hi hs
      · simp [hz, hc]
      · obtain ⟨⟨_ | js, u⟩, ho⟩ := ih (fun c hc => hcopy c (hrest c hc)) (hs.trans (hevolves _ _ _ hc))
        all_goals simp [hz, hc, ho]

/-- What a definition embeds is earlier or stale, and what is stale stays so while it is copied. -/
theorem Layered.copyTree_total {n : Nat} (hl : r.Layered) (ha : r.Arena) (hw : r.Unworn)
    (hs : Evolves false false r s) (hx : r.holding? h = some x) (hn : r.rank x.kind < n) :
    ∃ o, copyTree n h s = some o := by
  induction n generalizing h x s with
  | zero => omega
  | succ n ih =>
    have hy := (holding?_eq_some.mp hx).2.2
    have hd := definition?_grows ha hs (definition?_eq_some.mpr ⟨x, hx, rfl⟩)
    have hinputs : ∃ o, copyInputs (copyTree n) (r.kind x.kind).inputs s = some o := by
      refine copyInputs_total (fun _ _ _ => copyTree_evolves n _ _) (fun c hc {t} ht => ?_) hs
      obtain ⟨hissued, hless⟩ := hl _ x hy c hc
      cases hz : r.holding? c with
      | some z =>
        have hrank := rank_lt hy (hless z.kind (kind?_eq_some.mpr ⟨z, hz, rfl⟩))
        exact ih ht hz (by omega)
      | none =>
        have hlater := Later.of_evolves ha ht (hw.grows ha ht)
        have hstale : t.kind? c = none := by
          cases hk : t.kind? c with
          | none => rfl
          | some k =>
            have hk := hlater.kind hissued hk
            rw [kind?_eq_none.mpr hz] at hk
            cases hk
        have hpos := rank_pos hy
        obtain ⟨m, rfl⟩ : ∃ m, n = m + 1 := ⟨n - 1, by omega⟩
        exact ⟨(.error (.stale c), t), by simp [copyTree, definition?, hstale]⟩
    obtain ⟨⟨_ | js, t⟩, ho⟩ := hinputs
    all_goals simp [copyTree, hd, ho]

theorem copyInputs_mono {copy copy' : Copier} (hcopy : ∀ h r o, copy h r = some o → copy' h r = some o)
    {is : List Input} {o : Except Error (List Input) × Registry} (ho : copyInputs copy is r = some o) :
    copyInputs copy' is r = some o := by
  induction is generalizing r o with
  | nil => exact ho
  | cons i rest ih =>
    rw [copyInputs] at ho ⊢
    by_cases hz : i.child.isZero
    · rw [if_pos hz] at ho ⊢
      cases hrest : copyInputs copy rest r with
      | none =>
        rw [hrest] at ho
        cases ho
      | some u => rwa [ih hrest, ← hrest]
    · rw [if_neg hz] at ho ⊢
      cases hchild : copy i.child r with
      | none =>
        rw [hchild] at ho
        cases ho
      | some u =>
        rw [hcopy _ _ _ hchild]
        rw [hchild] at ho
        obtain ⟨_ | c, t⟩ := u
        · exact ho
        · dsimp only at ho ⊢
          cases hrest : copyInputs copy rest t with
          | none =>
            rw [hrest] at ho
            cases ho
          | some v => rwa [ih hrest, ← hrest]

/-- More fuel changes no copy. -/
theorem copyTree_mono {n m : Nat} {o : Except Error Handle × Registry} (ho : copyTree n h r = some o) (hnm : n ≤ m) :
    copyTree m h r = some o := by
  induction n generalizing h r o m with
  | zero => cases ho
  | succ n ih =>
    obtain ⟨m, rfl⟩ : ∃ l, m = l + 1 := ⟨m - 1, by omega⟩
    rw [copyTree] at ho ⊢
    cases hd : r.definition? h with
    | none =>
      rw [hd] at ho
      exact ho
    | some d =>
      rw [hd] at ho
      dsimp only at ho ⊢
      cases hinputs : copyInputs (copyTree n) d.inputs r with
      | none =>
        rw [hinputs] at ho
        cases ho
      | some u =>
        rw [copyInputs_mono (fun _ _ _ hc => ih hc (by omega)) hinputs, ← hinputs]
        exact ho

/-- Copying a definition ends, and as it does with any fuel that suffices. -/
theorem Layered.copyDefinition_total (hl : r.Layered) (ha : r.Arena) (hw : r.Unworn) (h : Handle) {n : Nat}
    (hn : r.records.size < n) : copyTree n h r = some (r.copyDefinition h) := by
  obtain ⟨o, ho⟩ : ∃ o, copyTree (r.records.size + 1) h r = some o := by
    cases hx : r.holding? h with
    | none => exact ⟨(.error (.stale h), r), by simp [copyTree, definition?, kind?, hx]⟩
    | some x =>
      refine hl.copyTree_total ha hw (.refl r) hx (Nat.lt_succ_of_le ?_)
      exact (Finset.card_filter_le _ _).trans (Finset.card_range _).le
  have hsame : r.copyDefinition h = o := by rw [copyDefinition, ho, Option.getD_some]
  rw [hsame]
  exact copyTree_mono ho hn

/-! ### Copies are apart -/

/-- In `s`, a definition and all below it are in use, in records that were not in `r`. -/
inductive Apart (r s : Registry) : Handle → Prop
  | of (h : Handle) (d : Definition) : r.held? h.index.toNat = none → s.definition? h = some d →
      (∀ c ∈ d.children, Apart r s c) → Apart r s h

theorem Apart.grows (ha : s.Arena) (he : Evolves false false s t) (hh : Apart r s h) : Apart r t h := by
  induction hh with
  | of h d hnot hd _ ih => exact .of h d hnot (definition?_grows ha he hd) ih

theorem Apart.reach (hh : Apart r s h) (hk : ReflTransGen s.Embeds h k) : Apart r s k := by
  induction hk with
  | refl => exact hh
  | tail _ hk ih =>
    obtain ⟨d, hd, hk⟩ := hk
    cases ih with
    | of _ d' _ hd' hc =>
      cases hd.symm.trans hd'
      exact hc _ hk

theorem Apart.unused (hh : Apart r s h) : r.held? h.index.toNat = none ∧ ∃ x, s.holding? h = some x := by
  cases hh with
  | of _ d hnot hd _ =>
    obtain ⟨x, hx, -⟩ := definition?_eq_some.mp hd
    exact ⟨hnot, x, hx⟩

theorem copyInputs_apart {copy : Copier} {is js : List Input} (ha : r.Arena)
    (hevolves : ∀ h r o, copy h r = some o → Evolves false false r o.2)
    (hcopy : ∀ {h h' s t}, Evolves false false r s → copy h s = some (.ok h', t) → t.Roomy → Apart r t h')
    (hs : Evolves false false r s) (ho : copyInputs copy is s = some (.ok js, t)) (hroom : t.Roomy) :
    ∀ c ∈ embedded js, Apart r t c := by
  induction is generalizing s js with
  | nil =>
    cases ho
    simp [embedded]
  | cons i rest ih =>
    rw [copyInputs] at ho
    split at ho
    · rename_i hz
      split at ho
      · rename_i ks u hks
        cases ho
        have hrest := ih hs hks
        simpa [embedded, hz] using hrest
      · rename_i hno
        exact absurd ho (hno _ _)
    · split at ho
      · rename_i c u hc
        split at ho
        · rename_i ks v hks
          cases ho
          have hfirst : Evolves false false s u := hevolves _ _ _ hc
          have hu := hs.trans hfirst
          have hrest : Evolves false false u t := copyInputs_evolves hevolves _ _ hks
          intro b hb
          rcases mem_embedded_cons hb with rfl | hb
          · have hub := ha.of_evolves hu
            exact (hcopy hs hc (hroom.of_evolves hub hrest)).grows hub hrest
          · exact ih hu hks b hb
        · rename_i hno
          exact absurd ho (hno _ _)
      · cases ho
      · cases ho

/-- All of a copy is in records that were not in use before. -/
theorem copyTree_apart {n : Nat} {h' : Handle} (ha : r.Arena) (hs : Evolves false false r s)
    (ho : copyTree n h s = some (.ok h', t)) (hroom : t.Roomy) : Apart r t h' := by
  induction n generalizing h h' s t with
  | zero => cases ho
  | succ n ih =>
    rw [copyTree] at ho
    cases hd : s.definition? h with
    | none =>
      rw [hd] at ho
      cases ho
    | some d =>
      rw [hd] at ho
      dsimp only at ho
      split at ho
      · rename_i js u hjs
        let d' : Definition := { d with inputs := js, owner := none }
        have hu := hs.trans (copyInputs_evolves (fun _ _ _ => copyTree_evolves n _ _) _ _ hjs)
        have hub := ha.of_evolves hu
        have hgrow := alloc_evolves d' u
        cases ho
        have hchildren := copyInputs_apart ha (fun _ _ _ => copyTree_evolves n _ _) ih hs hjs (hroom.of_evolves hub hgrow)
        obtain ⟨i, hp⟩ := hub.placed d'
        refine .of _ d' ?_ ?_ fun c hc => (hchildren c hc).grows hub hgrow
        · rw [hp.index hroom]
          exact unused_of_grows ha hu hp.unused
        · exact definition?_eq_some.mpr ⟨_, hp.addressed hroom, kind_push_size hp.kinds⟩
      · cases ho
      · cases ho

theorem copyDefinition_apart {h' : Handle} (ha : r.Arena) (ho : r.copyDefinition h = (.ok h', s)) (hroom : s.Roomy) :
    Apart r s h' := by
  unfold copyDefinition at ho
  cases hc : copyTree (r.records.size + 1) h r with
  | none =>
    rw [hc] at ho
    cases ho
  | some o =>
    rw [hc, Option.getD_some] at ho
    subst ho
    exact copyTree_apart ha (.refl r) hc hroom

end BlockEngine.Registry
