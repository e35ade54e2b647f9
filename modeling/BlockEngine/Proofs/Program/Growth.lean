/-
  BlockEngine.Proofs.Program.Growth — what new blocks and copies add to a program.

  Whatever comes of them, placing and copying blocks leave all blocks alone that were there and add
  blocks of which each lies in one slot at most, below the block that it is pointed at (`Grown`). So
  they keep a program linked (`Linked.grown`), also where a copy breaks down halfway.

  Proved:
  - `newBlock_grows`, `copyTree_grows`: the block that comes of it is the first one added; it is held by
    no slot and has the parent that was asked for.
-/

import BlockEngine.Proofs.Program.Links

namespace BlockEngine

namespace Program

variable {p q s : Program} {a b c : BlockId} {i : Nat} {x y : Block} {off : BlockId → Nat → BlockId → Option BlockId → Prop}

/-- Blocks were added. Each of them that lies in a slot lies in one only, of a block that was added before
    it and that is its parent. -/
structure Grown (p q : Program) : Prop extends Extends p q where
  chains : q.chains = p.chains
  single : ∀ {a i a' i' b}, p.blocks.size ≤ a → p.blocks.size ≤ a' → q.Holds a i b → q.Holds a' i' b → a = a' ∧ i = i'
  parent : ∀ {a i b}, p.blocks.size ≤ a → q.Holds a i b → q.parentOf b = some a

theorem lt_size_of_holds (h : p.Holds a i b) : a < p.blocks.size := lt_size_of_nests h.nests

namespace Grown

theorem of_eq (hb : q.blocks = p.blocks) (hc : q.chains = p.chains) : Grown p q where
  toExtends := .of_eq hb
  chains := hc
  single hle _ h _ := absurd (hb ▸ lt_size_of_holds h) (Nat.not_lt.mpr hle)
  parent hle h := absurd (hb ▸ lt_size_of_holds h) (Nat.not_lt.mpr hle)

theorem holds_old (h : Grown p q) (ha : a < p.blocks.size) : q.Holds a i b ↔ p.Holds a i b := by
  rw [Holds, Holds, h.old ha]

theorem parentOf_old (h : Grown p q) (hb : b < p.blocks.size) : q.parentOf b = p.parentOf b := by
  rw [parentOf, parentOf, h.old hb]

theorem trans (h : Grown p q) (h' : Grown q s) : Grown p s where
  toExtends := h.toExtends.trans h'.toExtends
  chains := h'.chains.trans h.chains
  single {a i a' i' b} hle hle' hold hold' := by
    by_cases ha : a < q.blocks.size <;> by_cases ha' : a' < q.blocks.size
    · exact h.single hle hle' ((h'.holds_old ha).mp hold) ((h'.holds_old ha').mp hold')
    · -- what a block holds that was added first was added first
      have hlt := (h.new hle ((h'.holds_old ha).mp hold).nests).2
      have hlt' := (h'.new (Nat.not_lt.mp ha') hold'.nests).1
      exact (ha' (Nat.lt_trans hlt' hlt)).elim
    · have hlt := (h.new hle' ((h'.holds_old ha').mp hold').nests).2
      have hlt' := (h'.new (Nat.not_lt.mp ha) hold.nests).1
      exact (ha (Nat.lt_trans hlt' hlt)).elim
    · exact h'.single (Nat.not_lt.mp ha) (Nat.not_lt.mp ha') hold hold'
  parent {a i b} hle hold := by
    by_cases ha : a < q.blocks.size
    · have hold' := (h'.holds_old ha).mp hold
      rw [h'.parentOf_old (h.new hle hold'.nests).2]
      exact h.parent hle hold'
    · exact h'.parent (Nat.not_lt.mp ha) hold

/-- A block that nests none. -/
theorem addBlock (hleaf : ∀ s ∈ x.slots, ∀ c, s.payload ≠ .block c) : Grown p (p.addBlock x).2 := by
  have hnew : ∀ {b y}, p.blocks.size ≤ b → (p.addBlock x).2.blocks[b]? = some y → y = x := by
    intro b y hle hy
    have hlt := (Array.getElem?_eq_some_iff.mp hy).1
    simp only [Program.addBlock, Array.size_push] at hlt
    have hb : b = p.blocks.size := by omega
    rw [hb, Program.addBlock, Array.getElem?_push_size] at hy
    exact (Option.some.inj hy).symm
  have hnone : ∀ {a i b}, p.blocks.size ≤ a → ¬ (p.addBlock x).2.Holds a i b := by
    rintro a i b hle ⟨y, t, hy, ht, hb⟩
    rw [hnew hle hy] at ht
    exact hleaf t (List.mem_of_getElem? ht) b hb
  exact ⟨.addBlock hleaf, rfl, fun hle _ h => (hnone hle h).elim, fun hle h => (hnone hle h).elim⟩

end Grown

/-- A program to which blocks are added is linked as before. -/
theorem Linked.grown (hp : p.Linked off) (h : Grown p q) : q.Linked off ∧ Tamer p q := by
  have hbounded : ∀ {a i b}, a < p.blocks.size → q.Holds a i b → b < p.blocks.size := fun ha hold =>
    hp.bounded ((h.holds_old ha).mp hold).nests
  refine ⟨⟨hp.toNested.extends h.toExtends, ?_, ?_, ?_⟩, ⟨h.size, ?_⟩⟩
  · intro a i a' i' b hold hold'
    by_cases ha : a < p.blocks.size <;> by_cases ha' : a' < p.blocks.size
    · exact hp.single ((h.holds_old ha).mp hold) ((h.holds_old ha').mp hold')
    · have hlt' := (h.new (Nat.not_lt.mp ha') hold'.nests).1
      exact (ha' (Nat.lt_trans hlt' (hbounded ha hold))).elim
    · have hlt' := (h.new (Nat.not_lt.mp ha) hold.nests).1
      exact (ha (Nat.lt_trans hlt' (hbounded ha' hold'))).elim
    · exact h.single (Nat.not_lt.mp ha) (Nat.not_lt.mp ha') hold hold'
  · intro a i b hold
    by_cases ha : a < p.blocks.size
    · rw [h.parentOf_old (hbounded ha hold)]
      exact hp.parent ((h.holds_old ha).mp hold)
    · exact .inl (h.parent (Nat.not_lt.mp ha) hold)
  · intro c b hmem
    rw [chain, h.chains] at hmem
    obtain ⟨hlt, hfree, hnone⟩ := hp.top hmem
    refine ⟨Nat.lt_of_lt_of_le hlt h.size, fun a i hold => ?_, (h.parentOf_old hlt).trans hnone⟩
    by_cases ha : a < p.blocks.size
    · exact hfree a i ((h.holds_old ha).mp hold)
    · exact ha (Nat.lt_trans (h.new (Nat.not_lt.mp ha) hold.nests).1 hlt)
  · rintro b hlt ⟨hfree, hsome⟩
    rw [h.parentOf_old hlt] at hsome
    exact ⟨fun a i hold => hfree a i ((h.holds_old (lt_size_of_holds hold)).mpr hold), hsome⟩

/-- No slot holds a block that none held before, nor the first one that is added. -/
theorem Grown.free (h : Grown p q) (hb : b ≤ p.blocks.size) (hfree : p.Free b) : q.Free b := by
  intro a i hold
  by_cases ha : a < p.blocks.size
  · exact hfree a i ((h.holds_old ha).mp hold)
  · exact ha (Nat.lt_of_lt_of_le (h.new (Nat.not_lt.mp ha) hold.nests).1 hb)

theorem Linked.free_size (hp : p.Linked off) : p.Free p.blocks.size := fun _ _ hold =>
  Nat.lt_irrefl _ (hp.bounded hold.nests)

/-! ## Slots of a new block -/

/-- Slots for a block `c` that hold only blocks that were added since `p`, each in one of the slots and pointed
    at `c`. -/
structure Furnished (p : Program) (c : BlockId) (ss : List Slot) (q : Program) : Prop where
  roots : ∀ {i : Nat} {s : Slot} {d : BlockId}, ss[i]? = some s → s.payload = .block d →
    p.blocks.size ≤ d ∧ d < q.blocks.size ∧ q.Free d ∧ q.parentOf d = some c
  distinct : ∀ {i j : Nat} {s t : Slot} {d : BlockId}, ss[i]? = some s → ss[j]? = some t → s.payload = .block d →
    t.payload = .block d → i = j

theorem Furnished.cons {t : Slot} {ss : List Slot} (ht : Furnished p c [t] q) (hpq : Grown p q)
    (h : Grown q s) (hss : Furnished q c ss s) : Furnished p c (t :: ss) s where
  roots {i u d} hu hd := by
    cases i with
    | zero =>
      obtain ⟨hle, hlt, hfree, hparent⟩ := ht.roots (i := 0) hu hd
      exact ⟨hle, Nat.lt_of_lt_of_le hlt h.size, h.free (Nat.le_of_lt hlt) hfree, (h.parentOf_old hlt).trans hparent⟩
    | succ i =>
      obtain ⟨hle, hrest⟩ := hss.roots (i := i) hu hd
      exact ⟨Nat.le_trans hpq.size hle, hrest⟩
  distinct {i j u v d} hu hv hud hvd := by
    cases i with
    | zero =>
      cases j with
      | zero => rfl
      | succ j =>
        have hlt := (ht.roots (i := 0) hu hud).2.1
        exact absurd hlt (Nat.not_lt.mpr (hss.roots (i := j) hv hvd).1)
    | succ i =>
      cases j with
      | zero =>
        have hlt := (ht.roots (i := 0) hv hvd).2.1
        exact absurd hlt (Nat.not_lt.mpr (hss.roots (i := i) hu hud).1)
      | succ j => exact congrArg (· + 1) (hss.distinct (i := i) (j := j) hu hv hud hvd)

theorem holds_setBlock (hx : p.blocks[b]? = some x) : (p.setBlock b y).Holds a i c ↔
    if a = b then ∃ s, y.slots[i]? = some s ∧ s.payload = .block c else p.Holds a i c := by
  have hlt := (Array.getElem?_eq_some_iff.mp hx).1
  by_cases hab : a = b
  · subst hab
    simp [Holds, setBlock, hlt]
  · simp [Holds, setBlock, hab, Ne.symm hab]

theorem Furnished.leaf {t : Slot} (hleaf : ∀ d, t.payload ≠ .block d) : Furnished p c [t] q where
  roots hu hd := by
    cases List.mem_singleton.mp (List.mem_of_getElem? hu)
    exact (hleaf _ hd).elim
  distinct hu _ hd _ := by
    cases List.mem_singleton.mp (List.mem_of_getElem? hu)
    exact (hleaf _ hd).elim

/-- The first block that was added gets its slots. -/
theorem Grown.furnish (h : Grown p q) (hc : c = p.blocks.size) (hx : q.blocks[c]? = some x)
    (hy : Furnished s c y.slots q) (hs : c < s.blocks.size) : Grown p (q.setBlock c y) := by
  have hchild : ∀ {i : Nat} {t : Slot} {d : BlockId}, y.slots[i]? = some t → t.payload = .block d → c < d :=
    fun ht hd => Nat.lt_of_lt_of_le hs (hy.roots ht hd).1
  have hlater : ∀ {a d i}, p.blocks.size ≤ a → q.Holds a i d → d ≠ c := by
    intro a d i hle hold hdc
    have hlt := (h.new hle hold.nests).1
    rw [hdc, hc] at hlt
    exact Nat.not_lt.mpr hle hlt
  refine ⟨h.toExtends.setBlock (Nat.le_of_eq hc.symm) fun t ht d hd => ?_, h.chains, ?_, ?_⟩
  · obtain ⟨i, hi⟩ := List.mem_iff_getElem?.mp ht
    exact ⟨hchild hi hd, (hy.roots hi hd).2.1⟩
  · intro a i a' i' d hle hle' hold hold'
    rw [holds_setBlock hx] at hold hold'
    split at hold <;> split at hold'
    · rename_i ha ha'
      obtain ⟨t, ht, hd⟩ := hold
      obtain ⟨t', ht', hd'⟩ := hold'
      exact ⟨ha.trans ha'.symm, hy.distinct ht ht' hd hd'⟩
    · obtain ⟨t, ht, hd⟩ := hold
      exact ((hy.roots ht hd).2.2.1 _ _ hold').elim
    · obtain ⟨t, ht, hd⟩ := hold'
      exact ((hy.roots ht hd).2.2.1 _ _ hold).elim
    · exact h.single hle hle' hold hold'
  · intro a i d hle hold
    rw [parentOf_setBlock hx]
    rw [holds_setBlock hx] at hold
    split at hold
    next ha =>
      obtain ⟨t, ht, hd⟩ := hold
      rw [if_neg (Nat.ne_of_gt (hchild ht hd)), (hy.roots ht hd).2.2.2, ha]
    next =>
      rw [if_neg (hlater hle hold)]
      exact h.parent hle hold

end Program

/-! ## Edits that only add blocks -/

namespace Edit

open Program

variable {α β : Type} {p q : Program} {off : BlockId → Nat → BlockId → Option BlockId → Prop}

/-- Whatever comes of it, the edit only adds blocks, and where it succeeds `Q` holds of what comes of it. -/
def Grows (e : Edit α) (p : Program) (Q : α → Program → Prop) : Prop :=
  Grown p (e.run p).2 ∧ ∀ a, (e.run p).1 = .ok a → Q a (e.run p).2

theorem grows_ok {e : Edit α} {Q : α → Program → Prop} {a : α} (h : e.run p = (.ok a, q)) (hg : Grown p q)
    (hQ : Q a q) : e.Grows p Q := by
  rw [Grows, h]
  refine ⟨hg, fun a' ha => ?_⟩
  cases ha
  exact hQ

theorem grows_error {e : Edit α} {Q : α → Program → Prop} {f : Fault} (h : e.run p = (.error f, q))
    (hg : Grown p q) : e.Grows p Q := by
  rw [Grows, h]
  exact ⟨hg, nofun⟩

theorem grows_bind {e : Edit α} {f : α → Edit β} {Q : α → Program → Prop} {R : β → Program → Prop} (he : e.Grows p Q)
    (hf : ∀ a q, Grown p q → Q a q → (f a).Grows q fun b s => R b s) : (e >>= f).Grows p R := by
  obtain ⟨hgrown, hQ⟩ := he
  unfold Grows
  rw [run_bind]
  generalize e.run p = o at hgrown hQ
  obtain ⟨x | a, q⟩ := o
  · exact ⟨hgrown, nofun⟩
  · obtain ⟨hgrown', hR⟩ := hf a q hgrown (hQ a rfl)
    exact ⟨hgrown.trans hgrown', hR⟩

theorem grows_map {e : Edit α} {Q : α → Program → Prop} {R : β → Program → Prop} {f : α → β} (he : e.Grows p Q)
    (hR : ∀ a q, Grown p q → Q a q → R (f a) q) : (do return f (← e) : Edit β).Grows p R :=
  grows_bind he fun _ _ hgrown hQ => grows_ok rfl (.of_eq rfl rfl) (hR _ _ hgrown hQ)

theorem Grows.and {e : Edit α} {Q : α → Program → Prop} {P : Program → Prop} (he : e.Grows p Q) (hP : P (e.run p).2) :
    e.Grows p fun a q => Q a q ∧ P q := ⟨he.1, fun a ha => ⟨he.2 a ha, hP⟩⟩

/-- An operation on a registry. -/
theorem grows_onRegistry {r : RegistryId} {f : Registry → α × Registry} :
    (onRegistry r f).Grows p fun _ q => q.blocks = p.blocks ∧ q.chains = p.chains :=
  grows_ok rfl (.of_eq rfl rfl) ⟨rfl, rfl⟩

/-- Slots are made one after the other. -/
theorem mapM_grows {f : α → Edit Slot} {c : BlockId} {as : List α}
    (hf : ∀ a ∈ as, ∀ {q : Program}, q.Linked off → (f a).Grows q fun t s => Furnished q c [t] s) (hp : p.Linked off) :
    (as.mapM f).Grows p (Furnished p c) := by
  induction as generalizing p with
  | nil =>
    rw [List.mapM_nil]
    exact grows_ok rfl (.of_eq rfl rfl) ⟨by simp, by simp⟩
  | cons a as ih =>
    rw [List.mapM_cons]
    refine grows_bind (hf a List.mem_cons_self hp) fun t q hgrown ht => ?_
    have hq := (hp.grown hgrown).1
    exact grows_map (ih (fun a ha => hf a (List.mem_cons_of_mem _ ha)) hq) fun ss s hgrown' hss => ht.cons hgrown hgrown' hss

/-! ## New blocks -/

theorem newSlot_grows (r : RegistryId) (id : Text) (i : Input) (c : BlockId) :
    (newSlot r id i).Grows p fun t q => Furnished p c [t] q := by
  unfold newSlot
  split
  · exact grows_ok rfl (.of_eq rfl rfl) (.leaf nofun)
  · exact grows_bind grows_onRegistry fun _ _ _ _ => grows_ok rfl (.of_eq rfl rfl) (.leaf nofun)
  · exact grows_ok rfl (.of_eq rfl rfl) (.leaf nofun)

/-- A new block is held by no slot and has no parent. -/
theorem newBlock_grows (r : RegistryId) (h : Handle) (hp : p.Linked off) :
    (newBlock r h).Grows p fun o q => ∀ b, o = .ok b → b = p.blocks.size ∧ b < q.blocks.size ∧ q.parentOf b = none := by
  refine grows_bind grows_onRegistry fun o p₁ hgrown₁ ⟨hblocks, _⟩ => ?_
  have hp₁ := (hp.grown hgrown₁).1
  split
  · exact grows_ok rfl (.of_eq rfl rfl) nofun
  · refine grows_bind (Q := fun _ q => q = p₁) (grows_ok rfl (.of_eq rfl rfl) rfl) fun p' q _ hq => ?_
    subst hq
    dsimp only
    split
    · exact grows_error rfl (.of_eq rfl rfl)
    · rename_i k hk
      generalize (p'.registry r).kind k = d
      have hslots : ((d.inputs.filter (·.type.hasSlot)).mapM (newSlot r d.id)).Grows q (Furnished q 0) :=
        mapM_grows (fun i _ {_} _ => newSlot_grows r d.id i 0) hp₁
      have hsame : (((d.inputs.filter (·.type.hasSlot)).mapM (newSlot r d.id)).run q).2.blocks = q.blocks :=
        rel_mapM (R := fun p q => q.blocks = p.blocks) (fun _ => rfl) (fun h h' => h'.trans h)
          (blocks_newSlot r d.id) _ q
      refine grows_bind (hslots.and (P := fun s => s.blocks = q.blocks) hsame) fun ss s _ ⟨hss, hs⟩ => ?_
      have hleaf : ∀ t ∈ ss, ∀ c, t.payload ≠ .block c := by
        intro t ht c hc
        obtain ⟨i, hi⟩ := List.mem_iff_getElem?.mp ht
        obtain ⟨hle, hlt, -⟩ := hss.roots hi hc
        rw [hs] at hlt
        exact Nat.not_lt.mpr hle hlt
      refine grows_ok rfl (.addBlock hleaf) fun b hb => ?_
      cases hb
      have hsize : s.blocks.size = p.blocks.size := by rw [hs, hblocks]
      refine ⟨hsize, ?_, ?_⟩
      · simp
      · simp [parentOf]

/-! ## Copies -/

theorem copySlot_grows {copy : BlockId → Edit BlockId} {c : BlockId}
    (hcopy : ∀ b, (copy b).Grows p fun d q => d = p.blocks.size ∧ d < q.blocks.size ∧ q.parentOf d = some c)
    (hp : p.Linked off) (r : RegistryId) (t : Slot) :
    (copySlot copy r t).Grows p fun t' q => Furnished p c [t'] q := by
  rw [copySlot_eq]
  split
  · rename_i b _
    refine grows_map (hcopy b) fun d q hgrown ⟨hd, hlt, hparent⟩ => ?_
    refine ⟨fun {i u e} hu he => ?_, fun {i j u v e} hu hv _ _ => ?_⟩
    · cases List.mem_singleton.mp (List.mem_of_getElem? hu)
      rw [Slot.payload_hold] at he
      cases he
      exact ⟨Nat.le_of_eq hd.symm, hlt, hgrown.free (Nat.le_of_eq hd) (hd ▸ hp.free_size), hparent⟩
    · have hi := (List.getElem?_eq_some_iff.mp hu).1
      have hj := (List.getElem?_eq_some_iff.mp hv).1
      simp only [List.length_singleton] at hi hj
      omega
  · split
    · exact grows_ok rfl (.of_eq rfl rfl) (.leaf t.bare_ne_block)
    · refine grows_bind grows_onRegistry fun o q _ _ => ?_
      split
      · exact grows_ok rfl (.of_eq rfl rfl) (.leaf nofun)
      · exact grows_error rfl (.of_eq rfl rfl)
  · split
    · exact grows_error rfl (.of_eq rfl rfl)
    · exact grows_ok rfl (.of_eq rfl rfl) (.leaf t.bare_ne_block)

/-- A copy is held by no slot and has the parent that was asked for. -/
theorem copyTree_grows (n : Nat) (b : BlockId) (parent : Option BlockId) (hp : p.Linked off) :
    (copyTree n b parent).Grows p fun c q => c = p.blocks.size ∧ c < q.blocks.size ∧ q.parentOf c = parent := by
  induction n generalizing b parent p with
  | zero => exact grows_error rfl (.of_eq rfl rfl)
  | succ n ih =>
    cases hx : p.blocks[b]? with
    | none =>
      refine grows_error (f := .error (.access .absent)) (q := p) ?_ (.of_eq rfl rfl)
      rw [copyTree, run_bind, run_block_absent hx]
    | some x =>
      refine grows_bind (Q := fun y q => y = x ∧ q = p) (grows_ok (run_block hx) (.of_eq rfl rfl) ⟨rfl, rfl⟩) ?_
      rintro y q - ⟨rfl, rfl⟩
      refine grows_bind grows_onRegistry fun o p₁ hgrown₁ ⟨hblocks, _⟩ => ?_
      have hp₁ := (hp.grown hgrown₁).1
      split
      · exact grows_error rfl (.of_eq rfl rfl)
      · -- the copy starts without slots
        let blank : Block := { y with slots := [], parent := parent, left := [] }
        have hgrown₂ : Grown p₁ (p₁.addBlock blank).2 := .addBlock (by simp [blank])
        have hp₂ := (hp₁.grown hgrown₂).1
        have hblank : (p₁.addBlock blank).2.blocks[p₁.blocks.size]? = some blank := by simp [Program.addBlock]
        have hlt := (Array.getElem?_eq_some_iff.mp hblank).1
        have hslots : (y.slots.mapM (copySlot (fun d => copyTree n d (some p₁.blocks.size)) y.registry)).Grows
            (p₁.addBlock blank).2 (Furnished (p₁.addBlock blank).2 p₁.blocks.size) :=
          mapM_grows (fun t _ {s} hs => copySlot_grows (fun d => ih d (some p₁.blocks.size) hs) hs y.registry t) hp₂
        unfold Grows
        rw [run_bind, show (ofState fun p => p.addBlock blank).run p₁ = (.ok p₁.blocks.size, (p₁.addBlock blank).2) from rfl]
        dsimp only
        rw [run_bind]
        unfold Grows at hslots
        generalize (y.slots.mapM (copySlot (fun d => copyTree n d (some p₁.blocks.size)) y.registry)).run
          (p₁.addBlock blank).2 = o at hslots ⊢
        obtain ⟨hgrown₃, hss⟩ := hslots
        obtain ⟨f | ss, s⟩ := o
        · exact ⟨hgrown₂.trans hgrown₃, fun _ h => by cases h⟩
        · have hx₃ := (hgrown₃.old hlt).trans hblank
          have hlt₃ := Nat.lt_of_lt_of_le hlt hgrown₃.size
          -- and takes them in the end
          have hfurnished : Grown p₁ (s.setBlock p₁.blocks.size { y with slots := ss, parent := parent, left := [] }) :=
            (hgrown₂.trans hgrown₃).furnish rfl hx₃ (hss ss rfl) hlt
          refine ⟨hfurnished, fun c hc => ?_⟩
          cases hc
          refine ⟨by rw [hblocks], Nat.lt_of_lt_of_eq hlt₃ Array.size_setIfInBounds.symm, ?_⟩
          exact (parentOf_setBlock hx₃ _ _).trans (if_pos rfl)

/-- Copies of blocks, one after the other. -/
theorem copies_grow (bs : List BlockId) (hp : p.Linked off) :
    (bs.mapM fun b => copyBlock b none).Grows p fun cs q => ∀ c ∈ cs, q.Root c := by
  induction bs generalizing p with
  | nil =>
    rw [List.mapM_nil]
    exact grows_ok rfl (.of_eq rfl rfl) (by simp)
  | cons b bs ih =>
    rw [List.mapM_cons]
    have hcopy : (copyBlock b none).Grows p fun c q => c = p.blocks.size ∧ c < q.blocks.size ∧ q.parentOf c = none :=
      copyTree_grows (p.blocks.size + 1) b none hp
    refine grows_bind hcopy fun c q hgrown ⟨hc, hlt, hparent⟩ => ?_
    have hfree := hgrown.free (Nat.le_of_eq hc) (hc ▸ hp.free_size)
    refine grows_map (ih (hp.grown hgrown).1) fun cs s hgrown' hcs => ?_
    refine List.forall_mem_cons.mpr ⟨?_, hcs⟩
    exact ((hp.grown hgrown).1.grown hgrown').2.root ⟨hlt, hfree, hparent⟩ (hgrown'.free (Nat.le_of_lt hlt) hfree)

end Edit

end BlockEngine
