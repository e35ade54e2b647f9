/-
  BlockEngine.Proofs.Program.Nesting — blocks in slots of blocks.

  Proved:
  - `pruned_destroyTree`: destroying a block takes nothing out of any other but what it contains, and
    leaves all blocks alone that it does not contain.
  - `Nested.extends`: blocks added on top of a program, each of which nests later ones, make no cycle.
  - `Nested.linked`: nor does nesting a block in one that it does not contain.
-/

import BlockEngine.Proofs.Program.Calls
import Mathlib.Data.Finset.Card
import Mathlib.Data.Finset.Range

namespace BlockEngine.Program

open Relation

def Nests (p : Program) (b c : BlockId) : Prop := ∃ x, p.blocks[b]? = some x ∧ ∃ s ∈ x.slots, s.payload = .block c

def Reaches (p : Program) : BlockId → BlockId → Prop := ReflTransGen p.Nests

/-- Every nested block is there, and none contains itself. -/
structure Nested (p : Program) : Prop where
  bounded : ∀ {b c}, p.Nests b c → c < p.blocks.size
  acyclic : ∀ b, ¬TransGen p.Nests b b

variable {p q s : Program} {b c : BlockId} {x : Block}

theorem Nested.start (n : Nat) : (start n).Nested where
  bounded := by simp [Nests, Program.start]
  acyclic b h := by
    obtain ⟨c, ⟨x, hx, -⟩, -⟩ := TransGen.head'_iff.mp h
    simp [Program.start] at hx

theorem lt_size_of_nests (h : p.Nests b c) : b < p.blocks.size := by
  obtain ⟨x, hx, -⟩ := h
  exact (Array.getElem?_eq_some_iff.mp hx).1

/-! ## Less nesting -/

structure Sub (p q : Program) : Prop where
  size : q.blocks.size = p.blocks.size
  nests : ∀ {b c}, q.Nests b c → p.Nests b c

theorem Sub.refl (p : Program) : Sub p p := ⟨rfl, id⟩

theorem Sub.trans (h : Sub p q) (h' : Sub q s) : Sub p s :=
  ⟨h'.size.trans h.size, fun hn => h.nests (h'.nests hn)⟩

theorem Sub.of_eq (h : q.blocks = p.blocks) : Sub p q :=
  ⟨by rw [h], fun hn => by rwa [Nests, h] at hn⟩

theorem Sub.reaches (h : Sub p q) (hr : q.Reaches b c) : p.Reaches b c :=
  ReflTransGen.mono (fun _ _ hn => h.nests hn) _ _ hr

theorem Nested.sub (hp : p.Nested) (h : Sub p q) : q.Nested where
  bounded hn := h.size ▸ hp.bounded (h.nests hn)
  acyclic b hb := hp.acyclic b (TransGen.mono (fun _ _ hn => h.nests hn) _ _ hb)

theorem Relinked.sub (h : Relinked p q) : Sub p q where
  size := by
    have hiff : ∀ i, q.blocks.size ≤ i ↔ p.blocks.size ≤ i := by
      intro i
      obtain ⟨parent, hb⟩ := h.blocks i
      rw [← Array.getElem?_eq_none_iff, hb, Option.map_eq_none_iff, Array.getElem?_eq_none_iff]
    exact Nat.le_antisymm ((hiff _).mpr (Nat.le_refl _)) ((hiff _).mp (Nat.le_refl _))
  nests := by
    rintro b c ⟨x, hx, hs⟩
    obtain ⟨parent, hb⟩ := h.blocks b
    rw [hb] at hx
    obtain ⟨y, hy, rfl⟩ := Option.map_eq_some_iff.mp hx
    exact ⟨y, hy, hs⟩

theorem nests_setBlock {d : BlockId} (h : (p.setBlock b x).Nests c d) :
    (c = b ∧ ∃ s ∈ x.slots, s.payload = .block d) ∨ c ≠ b ∧ p.Nests c d := by
  obtain ⟨y, hy, hs⟩ := h
  simp only [setBlock, Array.getElem?_setIfInBounds] at hy
  by_cases hc : b = c
  · subst hc
    simp only [if_true] at hy
    split at hy
    · cases hy
      exact .inl ⟨rfl, hs⟩
    · cases hy
  · rw [if_neg hc] at hy
    exact .inr ⟨Ne.symm hc, y, hy, hs⟩

/-- A block has lost its slots. -/
theorem Sub.setBlock_nil (hx : x.slots = []) : Sub p (p.setBlock b x) := by
  refine ⟨Array.size_setIfInBounds, fun {a c} h => ?_⟩
  rcases nests_setBlock h with ⟨-, s, hs, -⟩ | ⟨-, h⟩
  · rw [hx] at hs
    cases hs
  · exact h

/-- A block nests no more than it did. -/
theorem Sub.setBlock {y : Block} (hx : p.blocks[b]? = some x)
    (hy : ∀ c, (∃ s ∈ y.slots, s.payload = .block c) → ∃ s ∈ x.slots, s.payload = .block c) :
    Sub p (p.setBlock b y) := by
  refine ⟨Array.size_setIfInBounds, fun {a c} h => ?_⟩
  rcases nests_setBlock h with ⟨rfl, hs⟩ | ⟨-, h⟩
  · exact ⟨x, hx, hy c hs⟩
  · exact h

/-! ## Destroying -/

theorem blocks_drop (r : RegistryId) (h : Handle) (p : Program) : (p.drop r h).blocks = p.blocks := by
  unfold drop
  split <;> rfl

/-- The block and what it contains may be gone, and nothing else has changed. -/
structure Pruned (b : BlockId) (p q : Program) : Prop extends Sub p q where
  frame : ∀ {c}, ¬p.Reaches b c → q.blocks[c]? = p.blocks[c]?

/-- The block goes itself. -/
theorem Pruned.emptied {b : BlockId} {p q : Program} (hq : Pruned b p q) {r : RegistryId} {h : Handle} {y : Block}
    (hy : y.slots = []) : Pruned b p ((q.drop r h).setBlock b y) := by
  refine ⟨hq.toSub.trans (.trans (.of_eq (blocks_drop _ _ _)) (.setBlock_nil hy)), fun {c} hc => ?_⟩
  have hne : b ≠ c := fun h => hc (h ▸ .refl)
  simp only [setBlock, blocks_drop, Array.getElem?_setIfInBounds, if_neg hne]
  exact hq.frame hc

theorem pruned_destroyTree (n : Nat) (b : BlockId) (p : Program) : Pruned b p (destroyTree n b p) := by
  induction n generalizing b p with
  | zero => exact ⟨.refl p, fun _ => rfl⟩
  | succ n ih =>
    rw [destroyTree]
    split
    · exact ⟨.refl p, fun _ => rfl⟩
    · rename_i x hx
      -- what the slots hold goes first
      refine Pruned.emptied (List.foldlRecOn _ _ ⟨.refl p, fun _ => rfl⟩ fun q hq s hs => ?_) rfl
      split
      · rename_i c hc
        have hn := ih c q
        refine ⟨hq.toSub.trans hn.toSub, fun {d} hd => ?_⟩
        rw [hn.frame fun hr => hd (.head ⟨x, hx, s, hs, hc⟩ (hq.toSub.reaches hr)), hq.frame hd]
      · refine ⟨hq.toSub.trans (.of_eq (blocks_drop _ _ _)), fun hd => ?_⟩
        rw [blocks_drop, hq.frame hd]
      · exact hq

/-! ## More blocks -/

/-- Blocks were added, each of which nests later ones only. -/
structure Extends (p q : Program) : Prop where
  size : p.blocks.size ≤ q.blocks.size
  old : ∀ {b}, b < p.blocks.size → q.blocks[b]? = p.blocks[b]?
  new : ∀ {b c}, p.blocks.size ≤ b → q.Nests b c → b < c ∧ c < q.blocks.size

theorem Extends.of_eq (h : q.blocks = p.blocks) : Extends p q where
  size := by rw [h]
  old _ := by rw [h]
  new hb hn := absurd (h ▸ lt_size_of_nests hn) (Nat.not_lt.mpr hb)

theorem Extends.trans (h : Extends p q) (h' : Extends q s) : Extends p s where
  size := Nat.le_trans h.size h'.size
  old hb := (h'.old (Nat.lt_of_lt_of_le hb h.size)).trans (h.old hb)
  new {b c} hb hn := by
    by_cases hq : b < q.blocks.size
    · have hn' : q.Nests b c := by rwa [Nests, ← h'.old hq]
      obtain ⟨hlt, hc⟩ := h.new hb hn'
      exact ⟨hlt, Nat.lt_of_lt_of_le hc h'.size⟩
    · exact h'.new (Nat.not_lt.mp hq) hn

/-- A block that nests none is added. -/
theorem Extends.addBlock (hx : ∀ s ∈ x.slots, ∀ c, s.payload ≠ .block c) : Extends p (p.addBlock x).2 where
  size := by simp [Program.addBlock]
  old {b} hb := by simp [Program.addBlock, Array.getElem?_push, Nat.ne_of_lt hb]
  new {b c} hb hn := by
    obtain ⟨y, hy, s, hs, hc⟩ := hn
    have hlt := (Array.getElem?_eq_some_iff.mp hy).1
    simp only [Program.addBlock, Array.size_push] at hlt
    have hbx : b = p.blocks.size := Nat.le_antisymm (Nat.lt_succ_iff.mp hlt) hb
    rw [hbx, Program.addBlock, Array.getElem?_push_size] at hy
    cases hy
    exact absurd hc (hx s hs c)

/-- A block that was added gets its slots. -/
theorem Extends.setBlock (h : Extends p q) (hb : p.blocks.size ≤ b)
    (hx : ∀ s ∈ x.slots, ∀ c, s.payload = .block c → b < c ∧ c < q.blocks.size) : Extends p (q.setBlock b x) := by
  have hsize : (q.setBlock b x).blocks.size = q.blocks.size := Array.size_setIfInBounds
  refine ⟨hsize ▸ h.size, fun {c} hc => ?_, fun {c d} hc hn => ?_⟩
  · have hne : b ≠ c := Nat.ne_of_gt (Nat.lt_of_lt_of_le hc hb)
    rw [Program.setBlock, Array.getElem?_setIfInBounds, if_neg hne, h.old hc]
  · rw [hsize]
    rcases nests_setBlock hn with ⟨rfl, s, hs, hd⟩ | ⟨-, hn⟩
    · exact hx s hs d hd
    · exact h.new hc hn

theorem Extends.nests (h : Extends p q) (hb : b < p.blocks.size) (hn : q.Nests b c) : p.Nests b c := by
  rwa [Nests, ← h.old hb]

theorem Nested.extends (hp : p.Nested) (h : Extends p q) : q.Nested := by
  -- from an old block only old ones are reached, as before, and from a new one only later ones
  have hpath : ∀ {b c}, TransGen q.Nests b c →
      (b < p.blocks.size → TransGen p.Nests b c ∧ c < p.blocks.size) ∧ (p.blocks.size ≤ b → b < c) := by
    intro b c hbc
    induction hbc with
    | single hn =>
      refine ⟨fun hb => ?_, fun hb => (h.new hb hn).1⟩
      exact ⟨.single (h.nests hb hn), hp.bounded (h.nests hb hn)⟩
    | tail _ hn ih =>
      refine ⟨fun hb => ?_, fun hb => ?_⟩
      · obtain ⟨hc, hlt⟩ := ih.1 hb
        exact ⟨hc.tail (h.nests hlt hn), hp.bounded (h.nests hlt hn)⟩
      · have hlt := ih.2 hb
        exact Nat.lt_trans hlt (h.new (Nat.le_trans hb (Nat.le_of_lt hlt)) hn).1
  constructor
  · intro b c hn
    by_cases hb : b < p.blocks.size
    · exact Nat.lt_of_lt_of_le (hp.bounded (h.nests hb hn)) h.size
    · exact (h.new (Nat.not_lt.mp hb) hn).2
  · intro b hb
    by_cases hlt : b < p.blocks.size
    · exact hp.acyclic b ((hpath hb).1 hlt).1
    · exact Nat.lt_irrefl b ((hpath hb).2 (Nat.not_lt.mp hlt))

/-! ## One more nested block -/

theorem Nested.linked (hp : p.Nested) {child : BlockId} (hc : child < p.blocks.size) (hnot : ¬p.Reaches child b)
    (hsize : q.blocks.size = p.blocks.size)
    (hnests : ∀ {a d}, q.Nests a d → p.Nests a d ∨ a = b ∧ d = child) : q.Nested := by
  have hpath : ∀ {a d}, TransGen q.Nests a d →
      TransGen p.Nests a d ∨ p.Reaches a b ∧ p.Reaches child d := by
    intro a d had
    induction had with
    | single hn =>
      rcases hnests hn with hn | ⟨rfl, rfl⟩
      · exact .inl (.single hn)
      · exact .inr ⟨.refl, .refl⟩
    | tail _ hn ih =>
      rcases hnests hn with hn | ⟨rfl, rfl⟩
      · exact ih.imp (·.tail hn) fun ⟨h, h'⟩ => ⟨h, h'.tail hn⟩
      · rcases ih with ih | ⟨-, ih⟩
        · exact .inr ⟨ih.to_reflTransGen, .refl⟩
        · exact absurd ih hnot
  constructor
  · intro a d hn
    rw [hsize]
    rcases hnests hn with hn | ⟨-, rfl⟩
    · exact hp.bounded hn
    · exact hc
  · intro a ha
    rcases hpath ha with ha | ⟨hab, hca⟩
    · exact hp.acyclic a ha
    · exact hnot (hca.trans hab)

/-! ## How deep a block goes -/

open Classical in
noncomputable def depth (p : Program) (b : BlockId) : Nat :=
  (Finset.range p.blocks.size |>.filter fun c => p.Reaches b c).card

theorem depth_lt (hn : p.Nests b c) (hself : ¬TransGen p.Nests b b) : p.depth c < p.depth b := by
  classical
  refine Finset.card_lt_card ((Finset.ssubset_iff_of_subset ?_).mpr ⟨b, ?_, ?_⟩)
  · intro d hd
    simp only [Finset.mem_filter] at hd ⊢
    exact ⟨hd.1, hd.2.head hn⟩
  · simp only [Finset.mem_filter, Finset.mem_range]
    exact ⟨lt_size_of_nests hn, .refl⟩
  · simp only [Finset.mem_filter, not_and]
    intro _ hr
    exact hself (TransGen.head' hn hr)

theorem Nested.depth_lt (hp : p.Nested) (hn : p.Nests b c) : p.depth c < p.depth b :=
  Program.depth_lt hn (hp.acyclic b)

theorem depth_le (p : Program) (b : BlockId) : p.depth b ≤ p.blocks.size := by
  classical
  exact (Finset.card_filter_le _ _).trans (Finset.card_range _).le

end BlockEngine.Program
