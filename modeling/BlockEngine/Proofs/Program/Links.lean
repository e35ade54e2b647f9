/-
  BlockEngine.Proofs.Program.Links — nested blocks and their parents.

  A program is `Linked` if every block is held by one slot at most, and the parent of a nested block is
  the block whose slot holds it, but for some that are `off`. A block that is held by no slot and yet has
  a parent is astray.

  Proved, of the changes that operations are made of, that they keep a program linked and let no block
  go astray (`Tamer`): pointing parents at owners again (`Settles`), destroying blocks (`Razed`), and
  putting another payload in a slot.
-/

import BlockEngine.Proofs.Program.Accounts

namespace BlockEngine

def Block.gone (x : Block) : Block :=
  { x with handle := .zero, slots := [], parent := none, left := x.left ++ x.slots.map .cleared }

theorem Block.gone_gone (x : Block) : x.gone.gone = x.gone := by simp [gone]

theorem Block.map_gone_gone (x : Option Block) : (x.map gone).map gone = x.map gone := by
  cases x <;> simp [gone_gone]

namespace Program

open Relation

def Holds (p : Program) (a : BlockId) (i : Nat) (b : BlockId) : Prop :=
  ∃ x s, p.blocks[a]? = some x ∧ x.slots[i]? = some s ∧ s.payload = .block b

def parentOf (p : Program) (b : BlockId) : Option BlockId := p.blocks[b]?.bind (·.parent)

def Free (p : Program) (b : BlockId) : Prop := ∀ a i, ¬ p.Holds a i b

/-- The block is there, in no slot, and has no parent. -/
structure Root (p : Program) (b : BlockId) : Prop where
  there : b < p.blocks.size
  free : p.Free b
  parentless : p.parentOf b = none

/-- The block is there, in no slot and in no chain. -/
structure Detached (p : Program) (b : BlockId) : Prop where
  there : b < p.blocks.size
  free : p.Free b
  unlisted : ∀ k, b ∉ p.chain k

/-- Each block is held by one slot at most, the parent of a block is the one whose slot holds it unless it may
    be `off` with the parent that it has, and blocks of chains are roots. -/
structure Linked (p : Program) (off : BlockId → Nat → BlockId → Option BlockId → Prop) : Prop extends p.Nested where
  single : ∀ {a i a' i' b}, p.Holds a i b → p.Holds a' i' b → a = a' ∧ i = i'
  parent : ∀ {a i b}, p.Holds a i b → p.parentOf b = some a ∨ off a i b (p.parentOf b)
  top : ∀ {c : ChainId} {b : BlockId}, b ∈ p.chain c → p.Root b

/-- No slot holds the block, and yet it has a parent. -/
def Stray (p : Program) (b : BlockId) : Prop := p.Free b ∧ p.parentOf b ≠ none

/-- No block has gone astray. -/
structure Tamer (p q : Program) : Prop where
  size : p.blocks.size ≤ q.blocks.size
  stray : ∀ {b}, b < p.blocks.size → q.Stray b → p.Stray b

variable {p q s : Program} {a b c child : BlockId} {i : Nat} {x : Block}
  {off off' : BlockId → Nat → BlockId → Option BlockId → Prop}

theorem nests_iff : p.Nests a b ↔ ∃ i, p.Holds a i b := by
  constructor
  · rintro ⟨x, hx, t, ht, hb⟩
    obtain ⟨i, hi⟩ := List.mem_iff_getElem?.mp ht
    exact ⟨i, x, t, hx, hi, hb⟩
  · rintro ⟨i, x, t, hx, hi, hb⟩
    exact ⟨x, hx, t, List.mem_of_getElem? hi, hb⟩

theorem Holds.nests (h : p.Holds a i b) : p.Nests a b := nests_iff.mpr ⟨i, h⟩

theorem Free.not_nests (h : p.Free b) : ¬ p.Nests a b := by
  intro hn
  obtain ⟨i, hi⟩ := nests_iff.mp hn
  exact h a i hi

theorem Tamer.refl (p : Program) : Tamer p p := ⟨Nat.le_refl _, fun _ h => h⟩

theorem Tamer.trans (h : Tamer p q) (h' : Tamer q s) : Tamer p s where
  size := Nat.le_trans h.size h'.size
  stray hb hs := h.stray hb (h'.stray (Nat.lt_of_lt_of_le hb h.size) hs)

/-- A root stays one as long as no slot holds it. -/
theorem Tamer.root (h : Tamer p q) (hb : p.Root b) (hfree : q.Free b) : q.Root b where
  there := Nat.lt_of_lt_of_le hb.there h.size
  free := hfree
  parentless := Classical.byContradiction fun hsome => (h.stray hb.there ⟨hfree, hsome⟩).2 hb.parentless

theorem Linked.weaken (hp : p.Linked off)
    (h : ∀ {a i b}, p.Holds a i b → off a i b (p.parentOf b) → off' a i b (p.parentOf b)) : p.Linked off' where
  toNested := hp.toNested
  single := hp.single
  top := hp.top
  parent hold := (hp.parent hold).imp_right (h hold)

theorem Linked.single_nests (hp : p.Linked off) (h : p.Nests a b) (h' : p.Holds c i b) : a = c := by
  obtain ⟨j, hj⟩ := nests_iff.mp h
  exact (hp.single hj h').1

/-- Only chains have changed, and those of roots are made. -/
theorem Linked.relisted (hp : p.Linked off) (hb : q.blocks = p.blocks)
    (hc : ∀ (k : ChainId) (b : BlockId), b ∈ q.chain k → p.Root b) : q.Linked off ∧ Tamer p q := by
  have hholds : ∀ {a i b}, q.Holds a i b ↔ p.Holds a i b := by simp only [Holds, hb, implies_true]
  have hparent : ∀ b, q.parentOf b = p.parentOf b := fun b => by rw [parentOf, parentOf, hb]
  refine ⟨⟨hp.toNested.sub (.of_eq hb), ?_, ?_, ?_⟩, ⟨by rw [hb], ?_⟩⟩
  · exact fun h h' => hp.single (hholds.mp h) (hholds.mp h')
  · intro a i b h
    rw [hparent]
    exact hp.parent (hholds.mp h)
  · intro k b hmem
    obtain ⟨hlt, hfree, hnone⟩ := hc k b hmem
    exact ⟨hb ▸ hlt, fun a i h => hfree a i (hholds.mp h), (hparent b).trans hnone⟩
  · rintro b hlt ⟨hfree, hsome⟩
    rw [hparent] at hsome
    exact ⟨fun a i h => hfree a i (hholds.mpr h), hsome⟩

/-- Neither blocks nor chains have changed. -/
theorem Linked.of_eq (hp : p.Linked off) (hb : q.blocks = p.blocks) (hc : q.chains = p.chains) :
    q.Linked off ∧ Tamer p q :=
  hp.relisted hb fun k b hmem => hp.top (c := k) (by rwa [chain, hc] at hmem)

/-! ## Parents -/

theorem Relinked.holds_iff (h : Relinked p q) : q.Holds a i b ↔ p.Holds a i b := by
  obtain ⟨parent, hb⟩ := h.blocks a
  constructor
  · rintro ⟨x, t, hx, ht, hc⟩
    rw [hb] at hx
    obtain ⟨y, hy, rfl⟩ := Option.map_eq_some_iff.mp hx
    exact ⟨y, t, hy, ht, hc⟩
  · rintro ⟨x, t, hx, ht, hc⟩
    exact ⟨{ x with parent := parent }, t, by rw [hb, hx]; rfl, ht, hc⟩

theorem Relinked.free_iff (h : Relinked p q) : q.Free b ↔ p.Free b :=
  forall₂_congr fun _ _ => not_congr h.holds_iff

/-- Some parents were pointed at blocks that nest theirs. -/
structure Settles (p q : Program) : Prop extends Relinked p q where
  chains : q.chains = p.chains
  parent : ∀ b, q.parentOf b = p.parentOf b ∨ ∃ a, p.Nests a b ∧ q.parentOf b = some a

theorem Settles.refl (p : Program) : Settles p p := ⟨.refl p, rfl, fun _ => .inl rfl⟩

theorem Settles.nests_iff (h : Settles p q) : q.Nests a b ↔ p.Nests a b := by
  rw [Program.nests_iff, Program.nests_iff]
  exact exists_congr fun i => h.toRelinked.holds_iff

theorem Settles.trans (h : Settles p q) (h' : Settles q s) : Settles p s where
  toRelinked := h.toRelinked.trans h'.toRelinked
  chains := h'.chains.trans h.chains
  parent b := by
    rcases h'.parent b with hb | ⟨a, ha, hb⟩
    · rw [hb]
      exact h.parent b
    · exact .inr ⟨a, h.nests_iff.mp ha, hb⟩

theorem parentOf_setBlock (hx : p.blocks[b]? = some x) (y : Block) (c : BlockId) :
    (p.setBlock b y).parentOf c = if c = b then y.parent else p.parentOf c := by
  have hlt := (Array.getElem?_eq_some_iff.mp hx).1
  rw [parentOf, setBlock, Array.getElem?_setIfInBounds]
  by_cases hc : b = c
  · simp [hc, hc ▸ hlt]
  · simp [hc, Ne.symm hc, parentOf]

/-- A parent is pointed at a block that nests its own. -/
theorem settles_setParent (hx : p.blocks[b]? = some x) (h : p.Nests a b) :
    Settles p (p.setBlock b { x with parent := some a }) where
  toRelinked := relinked_setParent hx (some a)
  chains := rfl
  parent c := by
    rw [parentOf_setBlock hx]
    split
    next hc => exact .inr ⟨a, hc ▸ h, rfl⟩
    next hc => exact .inl rfl

theorem settles_foldl {α : Type} {f : Program → α → Program} (as : List α)
    (hf : ∀ a ∈ as, ∀ q, Settles p q → Settles q (f q a)) : Settles p (as.foldl f p) :=
  List.foldlRecOn _ _ (.refl p) fun q hq a ha => hq.trans (hf a ha q hq)

/-- All that a block nests is pointed at it, and so on. -/
theorem settles_relinkTree (n : Nat) (h : p.Nests a b) : Settles p (relinkTree n b (some a) p) := by
  induction n generalizing a b p with
  | zero => exact .refl p
  | succ n ih =>
    rw [relinkTree]
    split
    · exact .refl p
    · rename_i x hx
      have hroot := settles_setParent hx h
      refine hroot.trans (settles_foldl x.slots fun t ht q hq => ?_)
      split
      · rename_i c hc
        exact ih (hq.nests_iff.mpr (hroot.nests_iff.mpr ⟨x, hx, t, ht, hc⟩))
      · exact .refl q

/-- A block gets another parent, and all that it nests is pointed at it. -/
theorem settles_relink (hx : p.blocks[b]? = some x) (parent : Option BlockId) :
    Settles (p.setBlock b { x with parent := parent }) (p.relink b parent) := by
  have hroot := relinked_setParent hx parent
  rw [relink, relinkTree]
  split
  · rename_i hnone
    rw [hx] at hnone
    cases hnone
  · rename_i y hy
    cases hx.symm.trans hy
    refine settles_foldl x.slots fun t ht q hq => ?_
    split
    · rename_i c hc
      refine settles_relinkTree _ (hq.nests_iff.mpr ?_)
      obtain ⟨i, hi⟩ := Program.nests_iff.mp ⟨x, hx, t, ht, hc⟩
      exact (hroot.holds_iff.mpr hi).nests
    · exact .refl q

theorem parentOf_relink (hx : p.blocks[b]? = some x) (parent : Option BlockId) (c : BlockId) :
    (p.relink b parent).parentOf c = (if c = b then parent else p.parentOf c) ∨
      ∃ a, p.Nests a c ∧ (p.relink b parent).parentOf c = some a := by
  rcases (settles_relink hx parent).parent c with h | ⟨a, ha, h⟩
  · rw [parentOf_setBlock hx] at h
    exact .inl h
  · obtain ⟨i, hi⟩ := nests_iff.mp ha
    exact .inr ⟨a, ((relinked_setParent hx parent).holds_iff.mp hi).nests, h⟩

/-- The parents of nested blocks are right, and those of others gone or the same. -/
theorem Linked.repointed (hp : p.Linked off) (h : Relinked p q) (hc : q.chains = p.chains)
    (hheld : ∀ {a i b}, p.Holds a i b → q.parentOf b = some a ∨ off' a i b (q.parentOf b))
    (hfree : ∀ {b}, p.Free b → q.parentOf b = none ∨ q.parentOf b = p.parentOf b) : q.Linked off' ∧ Tamer p q := by
  have hsize := h.sub.size
  refine ⟨⟨hp.toNested.sub h.sub, ?_, ?_, ?_⟩, ⟨Nat.le_of_eq hsize.symm, ?_⟩⟩
  · exact fun h₁ h₂ => hp.single (h.holds_iff.mp h₁) (h.holds_iff.mp h₂)
  · exact fun h₁ => hheld (h.holds_iff.mp h₁)
  · intro c b hmem
    rw [chain, hc] at hmem
    obtain ⟨hlt, hbfree, hnone⟩ := hp.top hmem
    refine ⟨hsize.symm ▸ hlt, h.free_iff.mpr hbfree, ?_⟩
    rcases hfree hbfree with hq | hq
    · exact hq
    · exact hq.trans hnone
  · rintro b - ⟨hbfree, hsome⟩
    rw [h.free_iff] at hbfree
    refine ⟨hbfree, ?_⟩
    rcases hfree hbfree with hq | hq
    · exact (hsome hq).elim
    · rwa [hq] at hsome

/-- A block that no slot holds is left without a parent. -/
theorem Linked.detach (hp : p.Linked off) (hb : b < p.blocks.size) (hbfree : p.Free b) :
    (p.relink b none).Linked off ∧ Tamer p (p.relink b none) ∧ (p.relink b none).Root b := by
  have hx : p.blocks[b]? = some p.blocks[b] := Array.getElem?_eq_getElem hb
  have hother : ∀ {c}, p.Free c → (p.relink b none).parentOf c = if c = b then none else p.parentOf c := by
    intro c hc
    rcases parentOf_relink hx none c with h | ⟨a, ha, -⟩
    · exact h
    · exact (hc.not_nests ha).elim
  have hrelinked := relinked_relink b none p
  have hchains : (p.relink b none).chains = p.chains := (settles_relink hx none).chains
  have hkept : (p.relink b none).Linked off ∧ Tamer p (p.relink b none) := by
    refine hp.repointed hrelinked hchains (fun {a i c} hold => ?_) fun {c} hc => ?_
    · rcases parentOf_relink hx none c with h | ⟨a', ha, h⟩
      · have hne : c ≠ b := fun hcb => hbfree a i (hcb ▸ hold)
        rw [if_neg hne] at h
        rw [h]
        exact hp.parent hold
      · rw [h, hp.single_nests ha hold]
        exact .inl rfl
    · rw [hother hc]
      split
      · exact .inl rfl
      · exact .inr rfl
  refine ⟨hkept.1, hkept.2, Nat.lt_of_lt_of_eq hb hrelinked.sub.size.symm, hrelinked.free_iff.mpr hbfree, ?_⟩
  rw [hother hbfree, if_pos rfl]

/-- A block is pointed at the one whose slot holds it. -/
theorem Linked.attach (hp : p.Linked fun a i b parent => off a i b parent ∨ b = child) (hold : p.Holds a i child) :
    (p.relink child (some a)).Linked off ∧ Tamer p (p.relink child (some a)) := by
  have hlt := hp.bounded hold.nests
  have hx : p.blocks[child]? = some p.blocks[child] := Array.getElem?_eq_getElem hlt
  refine hp.repointed (relinked_relink child _ p) (settles_relink hx _).chains (fun {a' i' b} hold' => ?_) fun {b} hb => ?_
  · rcases parentOf_relink hx (some a) b with h | ⟨a'', ha, h⟩
    · by_cases hb : b = child
      · subst hb
        rw [if_pos rfl] at h
        rw [h, (hp.single hold hold').1]
        exact .inl rfl
      · rw [if_neg hb] at h
        rw [h]
        exact (hp.parent hold').imp_right fun hoff => hoff.resolve_right hb
    · rw [h, hp.single_nests ha hold']
      exact .inl rfl
  · rcases parentOf_relink hx (some a) b with h | ⟨a'', ha, -⟩
    · have hne : b ≠ child := fun hbc => hb a i (hbc ▸ hold)
      rw [if_neg hne] at h
      exact .inr h
    · exact (hb.not_nests ha).elim

/-! ## Destroying -/

/-- Some blocks were destroyed, each with all that it nests: some roots, and what was nested in others. -/
structure Razed (roots : BlockId → Prop) (p q : Program) : Prop where
  chains : q.chains = p.chains
  blocks : ∀ c : BlockId, q.blocks[c]? = p.blocks[c]? ∨ q.blocks[c]? = p.blocks[c]?.map Block.gone ∧
    (roots c ∨ ∃ a, p.Nests a c ∧ q.blocks[a]? = p.blocks[a]?.map Block.gone)
  nested : ∀ {a c : BlockId}, q.blocks[a]? ≠ p.blocks[a]? → p.Nests a c → q.blocks[c]? = p.blocks[c]?.map Block.gone

namespace Razed

variable {roots roots' : BlockId → Prop}

theorem of_eq (hb : q.blocks = p.blocks) (hc : q.chains = p.chains) : Razed roots p q where
  chains := hc
  blocks c := .inl (by rw [hb])
  nested hne := (hne (by rw [hb])).elim

theorem stays (h : Razed roots p q) {x : Option Block} (hc : p.blocks[c]? = x.map Block.gone) :
    q.blocks[c]? = x.map Block.gone := by
  rcases h.blocks c with hq | ⟨hq, -⟩
  · exact hq.trans hc
  · rw [hq, hc, Block.map_gone_gone]

/-- What is destroyed afterwards was there before. -/
theorem gone_of (h : Razed roots p q) {y : Option Block} (hc : y = q.blocks[c]?.map Block.gone) :
    y = p.blocks[c]?.map Block.gone := by
  rcases h.blocks c with hq | ⟨hq, -⟩
  · rw [hc, hq]
  · rw [hc, hq, Block.map_gone_gone]

theorem holds (h : Razed roots p q) (hold : q.Holds a i b) : q.blocks[a]? = p.blocks[a]? ∧ p.Holds a i b := by
  obtain ⟨x, t, hx, ht, hc⟩ := hold
  rcases h.blocks a with hq | ⟨hq, -⟩
  · exact ⟨hq, x, t, hq ▸ hx, ht, hc⟩
  · rw [hq] at hx
    obtain ⟨y, -, rfl⟩ := Option.map_eq_some_iff.mp hx
    simp [Block.gone] at ht

theorem nests (h : Razed roots p q) (hn : q.Nests a b) : p.Nests a b := by
  obtain ⟨i, hi⟩ := nests_iff.mp hn
  exact (h.holds hi).2.nests

theorem trans (h : Razed roots p q) (h' : Razed roots' q s) : Razed (fun c => roots c ∨ roots' c) p s where
  chains := h'.chains.trans h.chains
  blocks c := by
    rcases h'.blocks c with hs | ⟨hs, hfrom⟩
    · rw [hs]
      refine (h.blocks c).imp_right fun ⟨hq, hfrom⟩ => ⟨hq, ?_⟩
      rcases hfrom with hr | ⟨a, ha, hq⟩
      · exact .inl (.inl hr)
      · exact .inr ⟨a, ha, h'.stays hq⟩
    · refine .inr ⟨h.gone_of hs, ?_⟩
      rcases hfrom with hr | ⟨a, ha, hs⟩
      · exact .inl (.inr hr)
      · exact .inr ⟨a, h.nests ha, h.gone_of hs⟩
  nested {a c} hne hn := by
    by_cases hq : q.blocks[a]? = p.blocks[a]?
    · have hn' : q.Nests a c := by rwa [Nests, hq]
      exact h.gone_of (h'.nested (hq ▸ hne) hn')
    · exact h'.stays (h.nested hq hn)

theorem mono (h : Razed roots p q) (hr : ∀ c, roots c → roots' c) : Razed roots' p q where
  chains := h.chains
  blocks c := (h.blocks c).imp_right fun ⟨hq, hfrom⟩ => ⟨hq, hfrom.imp_left (hr c)⟩
  nested := h.nested

/-- A block goes after all that it nests. -/
theorem last (hx : p.blocks[b]? = some x) (hnested : ∀ c : BlockId, p.Nests b c → p.blocks[c]? = p.blocks[c]?.map Block.gone)
    {y : Block} (hy : y = x.gone) : Razed (· = b) p (p.setBlock b y) := by
  have hlt := (Array.getElem?_eq_some_iff.mp hx).1
  have hb : (p.setBlock b y).blocks[b]? = p.blocks[b]?.map Block.gone := by
    rw [setBlock, Array.getElem?_setIfInBounds, if_pos rfl, if_pos hlt, hx, hy]
    rfl
  have hother : ∀ c : BlockId, c ≠ b → (p.setBlock b y).blocks[c]? = p.blocks[c]? := by
    intro c hc
    rw [setBlock, Array.getElem?_setIfInBounds, if_neg (Ne.symm hc)]
  refine ⟨rfl, fun c => ?_, fun {a c} hne hn => ?_⟩
  · by_cases hc : c = b
    · exact .inr ⟨hc ▸ hb, .inl hc⟩
    · exact .inl (hother c hc)
  · have hab : a = b := Classical.byContradiction fun hab => hne (hother a hab)
    subst hab
    by_cases hc : c = a
    · exact hc ▸ hb
    · rw [hother c hc]
      exact hnested c hn

end Razed

theorem Sub.depth_le (h : Sub p q) (b : BlockId) : q.depth b ≤ p.depth b := by
  classical
  refine Finset.card_le_card fun c hc => ?_
  simp only [Finset.mem_filter, Finset.mem_range] at hc ⊢
  exact ⟨h.size ▸ hc.1, h.reaches hc.2⟩

theorem chains_drop (r : RegistryId) (h : Handle) (p : Program) : (p.drop r h).chains = p.chains := by
  unfold drop
  split <;> rfl

/-- The blocks in some slots of a block go one after the other, if each of them can. -/
theorem razed_slots {n : Nat}
    (ih : ∀ {c q}, Nested q → q.depth c < n →
      Razed (· = c) q (destroyTree n c q) ∧ (destroyTree n c q).blocks[c]? = q.blocks[c]?.map Block.gone)
    (hp : p.Nested) (hx : p.blocks[b]? = some x) (hn : p.depth b < n + 1) :
    ∀ (ss : List Slot) (q : Program), (∀ t ∈ ss, t ∈ x.slots) → Sub p q → Razed (p.Nests b) p q →
      let q' := ss.foldl
        (fun p s => match s.payload with
          | .block c => destroyTree n c p
          | .definition h => p.drop x.registry h
          | _ => p) q
      Razed (p.Nests b) p q' ∧
        ∀ c : BlockId, (q.blocks[c]? = p.blocks[c]?.map Block.gone ∨ ∃ t ∈ ss, t.payload = .block c) →
          q'.blocks[c]? = p.blocks[c]?.map Block.gone := by
  intro ss
  induction ss with
  | nil =>
    intro q _ _ hq
    refine ⟨hq, fun c hc => hc.resolve_right ?_⟩
    rintro ⟨t, ht, -⟩
    cases ht
  | cons t ss ihs =>
    intro q hmem hsub hq
    have hmem' : ∀ t ∈ ss, t ∈ x.slots := fun t ht => hmem t (List.mem_cons_of_mem _ ht)
    rw [List.foldl_cons]
    cases ht : t.payload with
    | block c =>
      have hnest : p.Nests b c := ⟨x, hx, t, hmem t List.mem_cons_self, ht⟩
      have hless := hp.depth_lt hnest
      have hle := hsub.depth_le c
      obtain ⟨hrazed, hroot⟩ := ih (c := c) (hp.sub hsub) (by omega)
      have hq' : Razed (p.Nests b) p (destroyTree n c q) :=
        (hq.trans hrazed).mono fun d hd => hd.elim id fun hdc => hdc ▸ hnest
      obtain ⟨hdone, hgone⟩ := ihs _ hmem' (hsub.trans (pruned_destroyTree n c q).toSub) hq'
      refine ⟨hdone, fun d hd => hgone d ?_⟩
      rcases hd with hd | ⟨u, hu, hud⟩
      · exact .inl (hrazed.stays hd)
      · rcases List.mem_cons.mp hu with rfl | hu
        · rw [ht] at hud
          cases hud
          exact .inl (hq.gone_of hroot)
        · exact .inr ⟨u, hu, hud⟩
    | definition h =>
      have hb := blocks_drop x.registry h q
      have hq' : Razed (p.Nests b) p (q.drop x.registry h) :=
        (hq.trans (.of_eq hb (chains_drop x.registry h q))).mono fun d hd => hd.elim id id
      obtain ⟨hdone, hgone⟩ := ihs _ hmem' (hsub.trans (.of_eq hb)) hq'
      refine ⟨hdone, fun d hd => hgone d ?_⟩
      rw [hb]
      simpa [ht] using hd
    | text t' =>
      obtain ⟨hdone, hgone⟩ := ihs q hmem' hsub hq
      exact ⟨hdone, fun d hd => hgone d (by simpa [ht] using hd)⟩
    | const t' =>
      obtain ⟨hdone, hgone⟩ := ihs q hmem' hsub hq
      exact ⟨hdone, fun d hd => hgone d (by simpa [ht] using hd)⟩

/-- With enough fuel a block is destroyed with all that it nests. -/
theorem razed_destroyTree (n : Nat) (hp : p.Nested) (hn : p.depth b < n) :
    Razed (· = b) p (destroyTree n b p) ∧ (destroyTree n b p).blocks[b]? = p.blocks[b]?.map Block.gone := by
  induction n generalizing b p with
  | zero => omega
  | succ n ih =>
    rw [destroyTree]
    split
    · rename_i hx
      exact ⟨.of_eq rfl rfl, by rw [hx]; rfl⟩
    · rename_i x hx
      obtain ⟨hdone, hgone⟩ := razed_slots ih hp hx hn x.slots p (fun _ ht => ht) (.refl p) (.of_eq rfl rfl)
      generalize hq : x.slots.foldl _ p = q at hdone hgone ⊢
      have hb := blocks_drop x.registry x.handle q
      have hdropped : Razed (p.Nests b) p (q.drop x.registry x.handle) :=
        (hdone.trans (.of_eq hb (chains_drop _ _ q))).mono fun d hd => hd.elim id id
      obtain ⟨y, hy, hyx⟩ : ∃ y, (q.drop x.registry x.handle).blocks[b]? = some y ∧ x.gone = y.gone := by
        rcases hdropped.blocks b with h | ⟨h, -⟩
        · exact ⟨x, h.trans hx, rfl⟩
        · exact ⟨x.gone, h.trans (by rw [hx]; rfl), x.gone_gone.symm⟩
      have hlast : Razed (· = b) (q.drop x.registry x.handle) ((q.drop x.registry x.handle).setBlock b x.gone) := by
        refine .last hy (fun c hc => ?_) hyx
        obtain ⟨z, hz, t, ht, htc⟩ := hdropped.nests hc
        cases hx.symm.trans hz
        rw [hb, hgone c (.inr ⟨t, ht, htc⟩), Block.map_gone_gone]
      have hroot : ((q.drop x.registry x.handle).setBlock b x.gone).blocks[b]? = p.blocks[b]?.map Block.gone := by
        have hlt := (Array.getElem?_eq_some_iff.mp hy).1
        rw [setBlock, Array.getElem?_setIfInBounds, if_pos rfl, if_pos hlt, hx]
        rfl
      have hall := hdropped.trans hlast
      refine ⟨⟨hall.chains, fun c => ?_, hall.nested⟩, hroot⟩
      refine (hall.blocks c).imp_right fun h => ⟨h.1, ?_⟩
      rcases h.2 with (hn | hc) | hfrom
      · exact .inr ⟨b, hn, hroot⟩
      · exact .inl hc
      · exact .inr hfrom

/-- A block is destroyed with all that it nests. -/
theorem razed_destroyBlock (hp : p.Nested) (b : BlockId) :
    Razed (· = b) p (p.destroyBlock b) ∧ (p.destroyBlock b).blocks[b]? = p.blocks[b]?.map Block.gone :=
  razed_destroyTree _ hp (Nat.lt_succ_of_le (p.depth_le b))

theorem parentOf_gone (h : q.blocks[b]? = p.blocks[b]?.map Block.gone) : q.parentOf b = none := by
  rw [parentOf, h]
  cases p.blocks[b]? <;> rfl

theorem Razed.parentOf {roots : BlockId → Prop} (h : Razed roots p q) (b : BlockId) :
    q.parentOf b = p.parentOf b ∨ q.parentOf b = none := by
  rcases h.blocks b with hq | ⟨hq, -⟩
  · exact .inl (by rw [Program.parentOf, Program.parentOf, hq])
  · exact .inr (parentOf_gone hq)

/-- Where blocks are destroyed, only the roots can be left in slots. -/
theorem Linked.razed {roots : BlockId → Prop} (hp : p.Linked off) (h : Razed roots p q)
    (hsub : Sub p q) : q.Linked (fun a i b parent => off a i b parent ∨ roots b ∧ parent = none) ∧ Tamer p q := by
  refine ⟨⟨hp.toNested.sub hsub, ?_, ?_, ?_⟩, ⟨Nat.le_of_eq hsub.size.symm, ?_⟩⟩
  · exact fun h₁ h₂ => hp.single (h.holds h₁).2 (h.holds h₂).2
  · intro a i b hold
    obtain ⟨-, hold'⟩ := h.holds hold
    rcases h.blocks b with hq | ⟨hq, hroot | ⟨a', ha, hgone⟩⟩
    · have hparent : q.parentOf b = p.parentOf b := by rw [Program.parentOf, Program.parentOf, hq]
      rw [hparent]
      exact (hp.parent hold').imp_right .inl
    · exact .inr (.inr ⟨hroot, parentOf_gone hq⟩)
    · -- the block that holds it would be destroyed too
      have haa := hp.single_nests ha hold'
      subst haa
      obtain ⟨x, t, hx, ht, -⟩ := hold
      rw [hgone] at hx
      obtain ⟨y, -, rfl⟩ := Option.map_eq_some_iff.mp hx
      simp [Block.gone] at ht
  · intro c b hmem
    rw [chain, h.chains] at hmem
    obtain ⟨hlt, hfree, hnone⟩ := hp.top hmem
    refine ⟨hsub.size.symm ▸ hlt, fun a i hold => hfree a i (h.holds hold).2, ?_⟩
    rcases h.parentOf b with hq | hq
    · exact hq.trans hnone
    · exact hq
  · rintro b - ⟨hfree, hsome⟩
    rcases h.blocks b with hq | ⟨hq, -⟩
    · have hparent : q.parentOf b = p.parentOf b := by rw [Program.parentOf, Program.parentOf, hq]
      refine ⟨fun a i hold => ?_, hparent ▸ hsome⟩
      -- a slot that held it is gone, and so is the block then
      by_cases ha : q.blocks[a]? = p.blocks[a]?
      · exact hfree a i (by rwa [Holds, ha])
      · exact hsome (parentOf_gone (h.nested ha hold.nests))
    · exact (hsome (parentOf_gone hq)).elim

/-! ## Slots -/

/-- A slot of a block was put in. -/
theorem holds_set {t : Slot} (hx : p.blocks[b]? = some x) (hi : i < x.slots.length) {j : Nat} :
    (p.setBlock b { x with slots := x.slots.set i t }).Holds a j c ↔
      if a = b ∧ j = i then t.payload = .block c else p.Holds a j c := by
  obtain ⟨hlt, hget⟩ := Array.getElem?_eq_some_iff.mp hx
  by_cases hab : a = b
  · subst hab
    by_cases hji : j = i
    · subst hji
      simp [Holds, setBlock, hlt, hi]
    · simp [Holds, setBlock, hlt, hji, Ne.symm hji, hget]
  · simp [Holds, setBlock, hab, Ne.symm hab]

theorem parentOf_set {t : Slot} (hx : p.blocks[b]? = some x) (c : BlockId) :
    (p.setBlock b { x with slots := x.slots.set i t }).parentOf c = p.parentOf c := by
  rw [parentOf_setBlock hx]
  split
  next hc =>
    rw [hc, parentOf, hx]
    rfl
  next => rfl

/-- A slot gets another payload, which nests at most a block that was in no slot and no chain. Its parent
    is still what it was. -/
theorem Linked.set {t t' : Slot} (hp : p.Linked off) (hx : p.blocks[b]? = some x) (ht : x.slots[i]? = some t)
    (hchild : ∀ c, t'.payload = .block c → p.Detached c ∧ ¬ p.Reaches c b) :
    (p.setBlock b { x with slots := x.slots.set i t' }).Linked (fun a j c parent => off a j c parent ∨ t'.payload = .block c) ∧
      ∀ c, (p.setBlock b { x with slots := x.slots.set i t' }).Stray c →
        p.Stray c ∨ t.payload = .block c ∧ p.parentOf c ≠ none := by
  have hi : i < x.slots.length := (List.getElem?_eq_some_iff.mp ht).1
  have hheld : ∀ {a j c}, (p.setBlock b { x with slots := x.slots.set i t' }).Holds a j c →
      a = b ∧ j = i ∧ t'.payload = .block c ∨ ¬ (a = b ∧ j = i) ∧ p.Holds a j c := by
    intro a j c hold
    rw [holds_set hx hi] at hold
    split at hold
    next h => exact .inl ⟨h.1, h.2, hold⟩
    next h => exact .inr ⟨h, hold⟩
  have hnests : ∀ {a c}, (p.setBlock b { x with slots := x.slots.set i t' }).Nests a c →
      p.Nests a c ∨ a = b ∧ t'.payload = .block c := by
    intro a c hn
    obtain ⟨j, hj⟩ := nests_iff.mp hn
    rcases hheld hj with ⟨ha, -, hc⟩ | ⟨-, hold⟩
    · exact .inr ⟨ha, hc⟩
    · exact .inl hold.nests
  have hsize : (p.setBlock b { x with slots := x.slots.set i t' }).blocks.size = p.blocks.size := Array.size_setIfInBounds
  have hparent := fun c => parentOf_set (i := i) (t := t') hx c
  refine ⟨⟨?_, ?_, ?_, ?_⟩, ?_⟩
  · cases hc : t'.payload with
    | block child =>
      obtain ⟨hdetached, hreach⟩ := hchild child hc
      refine hp.toNested.linked hdetached.there hreach hsize fun hn => (hnests hn).imp_right fun ⟨ha, hd⟩ => ⟨ha, ?_⟩
      rw [hc] at hd
      cases hd
      rfl
    | _ =>
      refine hp.toNested.sub ⟨hsize, fun hn => (hnests hn).resolve_right ?_⟩
      rintro ⟨-, hd⟩
      rw [hc] at hd
      cases hd
  · intro a j a' j' c h h'
    rcases hheld h with ⟨ha, hj, hc⟩ | ⟨hne, hold⟩ <;> rcases hheld h' with ⟨ha', hj', hc'⟩ | ⟨hne', hold'⟩
    · exact ⟨ha.trans ha'.symm, hj.trans hj'.symm⟩
    · exact ((hchild c hc).1.free a' j' hold').elim
    · exact ((hchild c hc').1.free a j hold).elim
    · exact hp.single hold hold'
  · intro a j c h
    rw [hparent]
    rcases hheld h with ⟨-, -, hc⟩ | ⟨-, hold⟩
    · exact .inr (.inr hc)
    · exact (hp.parent hold).imp_right .inl
  · intro k c hmem
    obtain ⟨hlt, hfree, hnone⟩ := hp.top hmem
    refine ⟨hsize.symm ▸ hlt, fun a j h => ?_, (hparent c).trans hnone⟩
    rcases hheld h with ⟨-, -, hc⟩ | ⟨-, hold⟩
    · exact (hchild c hc).1.unlisted k hmem
    · exact hfree a j hold
  · rintro c ⟨hfree, hsome⟩
    rw [hparent] at hsome
    by_cases hpc : p.Free c
    · exact .inl ⟨hpc, hsome⟩
    · simp only [Free, not_forall, not_not] at hpc
      obtain ⟨a, j, hold⟩ := hpc
      have hbi : a = b ∧ j = i := Classical.byContradiction fun h =>
        hfree a j ((holds_set hx hi).mpr (by rwa [if_neg h]))
      obtain ⟨rfl, rfl⟩ := hbi
      obtain ⟨y, u, hy, hu, hc⟩ := hold
      cases hx.symm.trans hy
      cases ht.symm.trans hu
      exact .inr ⟨hc, hsome⟩

/-- What a slot holds is destroyed or dropped; a block is still in the slot then. -/
theorem Linked.clearPayload (hp : p.Linked off) (r : RegistryId) (t : Slot) :
    (p.clearPayload r t).Linked (fun a j c parent => off a j c parent ∨ t.payload = .block c) ∧ Tamer p (p.clearPayload r t) ∧
      (p.clearPayload r t).chains = p.chains ∧ ∀ c, t.payload = .block c → (p.clearPayload r t).parentOf c = none := by
  unfold Program.clearPayload
  split
  · rename_i c hc
    obtain ⟨hrazed, hroot⟩ := razed_destroyBlock hp.toNested c
    obtain ⟨hlinked, htamer⟩ := hp.razed hrazed (pruned_destroyTree _ c p).toSub
    refine ⟨hlinked.weaken fun _ hd => hd.imp_right fun ⟨hdc, _⟩ => hdc ▸ hc, htamer, hrazed.chains, fun d hd => ?_⟩
    rw [hc] at hd
    cases hd
    exact parentOf_gone hroot
  · rename_i h hh
    obtain ⟨hlinked, htamer⟩ := hp.of_eq (blocks_drop r h p) (chains_drop r h p)
    exact ⟨hlinked.weaken fun _ => .inl, htamer, chains_drop r h p, fun d hd => by rw [hh] at hd; cases hd⟩
  · rename_i hnb _
    exact ⟨hp.weaken fun _ => .inl, .refl p, rfl, fun d hd => (hnb d hd).elim⟩

/-- A slot is cleared and gets another payload. -/
theorem Linked.swap {t : Slot} (hp : p.Linked off) (t' : Slot) (hx : p.blocks[b]? = some x) (ht : x.slots[i]? = some t)
    (hchild : ∀ c, t'.payload = .block c → p.Detached c ∧ ¬ p.Reaches c b) :
    ((p.clearPayload x.registry t).setSlot b i t').Linked (fun a j c parent => off a j c parent ∨ t'.payload = .block c) ∧
      Tamer p ((p.clearPayload x.registry t).setSlot b i t') := by
  obtain ⟨hsub, hx'⟩ := hp.toNested.clearPayload hx (List.mem_of_getElem? ht) x.registry
  obtain ⟨hcleared, htamer, hchains, hnone⟩ := hp.clearPayload x.registry t
  rw [hp.toNested.swap_eq hx ht]
  obtain ⟨hlinked, hstray⟩ := hcleared.set hx' ht fun c hc => by
    obtain ⟨⟨hlt, hfree, hchain⟩, hreach⟩ := hchild c hc
    refine ⟨⟨hsub.size.symm ▸ hlt, fun a j hold => ?_, fun k => ?_⟩, fun hr => hreach (hsub.reaches hr)⟩
    · exact hfree.not_nests (hsub.nests hold.nests)
    · rw [chain, hchains]
      exact hchain k
  refine ⟨hlinked.weaken fun {a j c} hold hc => ?_, ⟨?_, fun {c} hlt hc => ?_⟩⟩
  · rcases hc with (hoff | htc) | hc
    · exact .inl hoff
    · -- the slot was the only one that held the old block
      rw [holds_set hx' (List.getElem?_eq_some_iff.mp ht).1] at hold
      split at hold
      next => exact .inr hold
      next hne => exact (hne (hcleared.single hold ⟨x, t, hx', ht, htc⟩)).elim
    · exact .inr hc
  · exact Nat.le_of_eq (hsub.size.symm.trans Array.size_setIfInBounds.symm)
  · rcases hstray c hc with hc | ⟨htc, hsome⟩
    · exact htamer.stray hlt hc
    · exact (hsome (hnone c htc)).elim

end Program

end BlockEngine
