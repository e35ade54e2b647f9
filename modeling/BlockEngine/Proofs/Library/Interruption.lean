/-
  BlockEngine.Proofs.Library.Interruption — the control stack of a run that is interrupted.

  A run can be cancelled from outside at any time, and finds out at its next checkpoint, which may be
  deep in calls and arguments. The run that waits before each checkpoint (`Watch.waits`) is one that its
  host may cancel at any of them. A host touches no stack, so a walk that is resumed stands where it
  waited.

  Proved: `waiting_keeps_control`. In regions of standard blocks, invocations that wait leave the control
  stack as they found it, too, and in a tidy region break down only where a stack is full.
-/

import BlockEngine.Proofs.Library.Walk
import BlockEngine.Proofs.Machine.Watched

namespace BlockEngine

variable {p : Program} {R : Region p} {lenient : Prop}

/-- The stacks are what they were when the walk is resumed. -/
theorem Within.resumed {c : ChainId} {S : Stretch} {m₀ m k : Machine} {args : List Value} {cursor : Cursor}
    (h : Within False m₀ args (Standing p lenient c S cursor) m) (hk : m.MayResume k) :
    Within False m₀ args (Standing p lenient c S cursor) k := by
  obtain ⟨hprogram, hexec⟩ := hk
  have hstanding : Standing p lenient c S cursor k := by
    obtain ⟨⟨kept, hstack, hlen⟩, hbare, hcloses⟩ := h.holds
    refine ⟨⟨kept, ⟨?_, ?_, ?_⟩, hlen⟩, hbare, ?_⟩
    · rw [hexec]
      exact hstack.frames
    · rw [hexec]
      exact hstack.bindings
    · rw [hexec]
      exact hstack.mute
    · rw [hexec]
      exact hcloses
  exact ⟨h.underway.of_eq hprogram (by rw [hexec]), False.elim, hstanding⟩

namespace Work

/-- As `keeps_control`, waiting before each checkpoint. -/
theorem waiting_keeps_control (ht : lenient ∨ R.Tidy) (n : Nat) :
    (∀ chain, EvaluatesWell R lenient False True (evaluateWatched ⟨true, none⟩ n chain)) ∧
      InvokesWell R lenient False True (invokeWatched ⟨true, none⟩ n) ∧
      WalksWell R lenient False True (walkWatched ⟨true, none⟩ n) := by
  induction n with
  | zero =>
    refine ⟨?_, ?_, ?_⟩
    · intro chain b index mark bare prior kept K m _ _ _ _ _
      rw [evaluateWatched]
      trivial
    · intro c args m _ _ _ _ _
      rw [invokeWatched]
      trivial
    · intro c m₀ args cursor m _ _ _ _
      rw [walkWatched]
      trivial
  | succ n ih =>
    obtain ⟨he, hi, hw⟩ := ih
    obtain ⟨hse, hr, -⟩ := watched_keeps_scopes ⟨true, none⟩ n
    refine ⟨?_, ?_, ?_⟩
    · intro chain b index mark bare prior kept K m hb hent hprior hm hcontrol
      rw [evaluateWatched]
      show (evaluateWith _ _ b index mark bare prior >>= reportAt _ b chain index).Meets _ _ m
      rw [reportAt_none, bind_pure]
      exact evaluateWith_serves (he none) (hse none) hi hr ht hb hent hprior hm hcontrol
    · rw [invokeWatched]
      exact invokeWith_keeps fun hc hs hp hpl hargs => hw hc hs hp (Within.begun ht hc hpl hargs)
    · intro c m₀ args cursor m hc hs hp h
      rw [walkWatched]
      refine meets_await _ (fun k hk => ?_) trivial
      rw [meets_bind]
      refine (advance_stands (he (some c)) (hse (some c)) hs hp (R.listed hc) (hs.whole p c lenient) id
        (h.resumed hk)).weaken fun turn l hl => ?_
      cases turn with
      | next cursor => exact hw hc hs hp hl
      | stop error =>
        dsimp only
        rw [endWalk_none]
        exact hl

end Work

end BlockEngine
