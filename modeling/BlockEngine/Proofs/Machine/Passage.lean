/-
  BlockEngine.Proofs.Machine.Passage — the walk through part of a chain.

  A passage is a run of steps of a walk, each taken from a position in some part of the chain
  (`Passage`). Where the steps are turns of the walk, with any fuel that suffices, the walk from where
  the passage begins is the walk from where it ends (`Passage.walk_eq`), and it comes past that part of
  the chain in one way only (`Passage.unique`).
-/

import BlockEngine.Proofs.Machine.Invocation
import Mathlib.Order.Filter.AtTopBot.Basic

namespace BlockEngine

/-- Steps of a walk from one point to another, each from a position between `lo` and before `hi`. -/
inductive Passage (step : Cursor → Machine → Cursor → Machine → Prop) (lo hi : Nat) :
    Cursor → Machine → Cursor → Machine → Prop
  | here (x : Cursor) (m : Machine) : Passage step lo hi x m x m
  | step {x y z : Cursor} {m k l : Machine} : lo ≤ x.position → x.position < hi → step x m y k →
      Passage step lo hi y k z l → Passage step lo hi x m z l

/-- A turn of the walk through a chain, in the invocation at a depth, with any fuel that suffices. -/
def Work.Turns (c : ChainId) (depth : Nat) (x : Cursor) (m : Machine) (y : Cursor) (k : Machine) : Prop :=
  ∀ᶠ n in Filter.atTop, advance (evaluate n) c depth x m = .done (.next y) k

namespace Passage

variable {step step' : Cursor → Machine → Cursor → Machine → Prop} {lo lo' hi hi' : Nat} {x y z : Cursor}
  {m k l : Machine}

theorem one (hlo : lo ≤ x.position) (hhi : x.position < hi) (h : step x m y k) : Passage step lo hi x m y k :=
  .step hlo hhi h (.here y k)

theorem trans (h : Passage step lo hi x m y k) (h' : Passage step lo hi y k z l) : Passage step lo hi x m z l := by
  induction h with
  | here => exact h'
  | step hlo hhi hstep _ ih => exact .step hlo hhi hstep (ih h')

/-- A part of the chain lies in another. -/
theorem widen (h : Passage step lo hi x m y k) (hlo : lo' ≤ lo) (hhi : hi ≤ hi') : Passage step lo' hi' x m y k := by
  induction h with
  | here => exact .here _ _
  | step hx hx' hstep _ ih => exact .step (hlo.trans hx) (hx'.trans_le hhi) hstep ih

theorem mono (h : Passage step lo hi x m y k) (hs : ∀ {x m y k}, step x m y k → step' x m y k) :
    Passage step' lo hi x m y k := by
  induction h with
  | here => exact .here _ _
  | step hlo hhi hstep _ ih => exact .step hlo hhi (hs hstep) ih

open Work

variable {c : ChainId} {depth : Nat}

/-- The walk goes on from where the passage ends. -/
theorem walk_eq (h : Passage (Turns c depth) lo hi x m y k) :
    ∃ turns, ∀ᶠ n in Filter.atTop, walk (n + turns) c depth x m = walk n c depth y k := by
  induction h with
  | here => exact ⟨0, .of_forall fun _ => rfl⟩
  | step _ _ hturn _ ih =>
    obtain ⟨turns, hwalk⟩ := ih
    refine ⟨turns + 1, ?_⟩
    filter_upwards [hwalk, (Filter.tendsto_add_atTop_nat turns).eventually hturn] with n hn ht
    rw [← Nat.add_assoc, walk, ← hn]
    show (advance (evaluate (n + turns)) c depth _ >>= _) _ = _
    rw [bind_apply, ht]
    rfl

/-- The walk comes past a part of the chain in one way only. -/
theorem unique {y' : Cursor} {k' : Machine} (h : Passage (Turns c depth) lo hi x m y k) (hy : y.position = hi)
    (h' : Passage (Turns c depth) lo hi x m y' k') (hy' : y'.position = hi) : y = y' ∧ k = k' := by
  induction h with
  | here =>
    cases h' with
    | here => exact ⟨rfl, rfl⟩
    | step _ hlt => exact absurd hy (Nat.ne_of_lt hlt)
  | step _ hlt hturn _ ih =>
    cases h' with
    | here => exact absurd hy' (Nat.ne_of_lt hlt)
    | step _ _ hturn' hrest' =>
      obtain ⟨n, hn, hn'⟩ := (hturn.and hturn').exists
      cases hn.symm.trans hn'
      exact ih hy hrest'

end Passage

end BlockEngine
