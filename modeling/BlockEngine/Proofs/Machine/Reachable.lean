/-
  BlockEngine.Proofs.Machine.Reachable — the machines that a run comes by.

  A run can be looked at wherever it begins to evaluate a block, to invoke a chain or to take a turn
  of a walk: the interpreter that stops there, on machines of one's choice, does the same as the
  interpreter up to that point (`invokeUntil_never`). What it shows are the machines that a run
  comes by.

  Proved: every machine that a run comes by is scoped (`Machine.Reachable.toScoped`).
-/

import BlockEngine.Proofs.Machine.Invocation

namespace BlockEngine

namespace Work

/-- Does the work, but stops at once on some machines. -/
def unlessAt {α : Type} (stop : Machine → Bool) (w : Work α) : Work α := fun m => if stop m then .starved m else w m

mutual

/-- As `evaluate`, with stops. -/
def evaluateUntil (stop : Machine → Bool) : Nat → Evaluator
  | 0 => fun _ _ _ _ _ => starve
  | n + 1 => fun b index mark bare prior =>
    unlessAt stop (evaluateWith (evaluateUntil stop n) (invokeUntil stop n) b index mark bare prior)

def invokeUntil (stop : Machine → Bool) : Nat → Invoker
  | 0 => fun _ _ => starve
  | n + 1 => fun c args => unlessAt stop (invokeWith (fun c depth => walkUntil stop n c depth {}) c args)

def walkUntil (stop : Machine → Bool) : Nat → ChainId → Nat → Cursor → Work (Option Error)
  | 0, _, _, _ => starve
  | n + 1, c, depth, cursor => unlessAt stop <|
    bind (advance (evaluateUntil stop n) c depth cursor) fun
      | .next cursor => walkUntil stop n c depth cursor
      | .stop error => pure error

end

theorem unlessAt_never {α : Type} (w : Work α) : unlessAt (fun _ => false) w = w := rfl

/-- Without stops it is the interpreter. -/
theorem untilNever (n : Nat) :
    evaluateUntil (fun _ => false) n = evaluate n ∧ invokeUntil (fun _ => false) n = invoke n ∧
      walkUntil (fun _ => false) n = walk n := by
  induction n with
  | zero =>
    refine ⟨?_, ?_, ?_⟩
    · rw [evaluateUntil, evaluate]
    · rw [invokeUntil, invoke]
    · funext c depth cursor
      rw [walkUntil, walk]
  | succ n ih =>
    obtain ⟨he, hi, hw⟩ := ih
    refine ⟨?_, ?_, ?_⟩
    · rw [evaluateUntil, evaluate, he, hi]
      rfl
    · rw [invokeUntil, invoke, hw]
      rfl
    · funext c depth cursor
      rw [walkUntil, walk, he, hw]
      exact unlessAt_never _

theorem invokeUntil_never (n : Nat) : invokeUntil (fun _ => false) n = invoke n := (untilNever n).2.1

theorem meets_unlessAt {α : Type} {stop : Machine → Bool} {w : Work α} {Q : α → Machine → Prop} {m : Machine}
    (hs : m.Scoped) (hw : w.Meets Q (.all Machine.Scoped) m) :
    (unlessAt stop w).Meets Q (.all Machine.Scoped) m := by
  unfold Meets unlessAt
  split
  · exact hs
  · exact hw

/-- As `keeps_scopes`, with stops. -/
theorem until_keeps_scopes (stop : Machine → Bool) (n : Nat) :
    Settling (evaluateUntil stop n) ∧ Restoring (invokeUntil stop n) ∧
      ∀ cursor, Walking fun c depth => walkUntil stop n c depth cursor := by
  induction n with
  | zero =>
    refine ⟨?_, ?_, ?_⟩
    · intro b index mark bare prior m hc hs
      rw [evaluateUntil]
      exact hs
    · intro c args m hs
      rw [invokeUntil]
      exact hs
    · intro cursor c m₀ args m hs h
      show GoesOn m₀ args (walkUntil stop 0 c _ cursor) m
      rw [walkUntil]
      exact h.toScoped hs
  | succ n ih =>
    obtain ⟨he, hi, hw⟩ := ih
    refine ⟨?_, ?_, ?_⟩
    · intro b index mark bare prior m hc hs
      rw [evaluateUntil]
      exact meets_unlessAt hs (evaluateWith_settling he hi b index mark bare prior m hc hs)
    · intro c args m hs
      rw [invokeUntil]
      exact meets_unlessAt hs (invokeWith_restoring (hw {}) c args m hs)
    · intro cursor c m₀ args m hs h
      show GoesOn m₀ args (walkUntil stop (n + 1) c _ cursor) m
      rw [walkUntil]
      exact meets_unlessAt (h.toScoped hs) (walking_turn he hw cursor c m₀ args m hs h)

end Work

open Work

/-- A run comes by the machine: it ends there, breaks down or is paused, or begins to evaluate a
    block, to invoke a chain or to take a turn of a walk. -/
def Machine.Reachable (m : Machine) : Prop :=
  ∃ stop n r cs cause m₀, (worker (invokeUntil stop n) r cs cause m₀).Shows m

/-- Every machine that a run comes by is scoped. -/
theorem Machine.Reachable.toScoped {m : Machine} (h : m.Reachable) : m.Scoped := by
  obtain ⟨stop, n, r, cs, cause, m₀, h⟩ := h
  exact worker_scoped (until_keeps_scopes stop n).2.1 r cs cause h

end BlockEngine
