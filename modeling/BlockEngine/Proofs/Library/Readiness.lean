/-
  BlockEngine.Proofs.Library.Readiness — what runs of a region come by.

  An interpreter that waits before a block, an invocation or a turn of a walk wherever the machine is not
  ready, never waits in a region (`invokePaced_ne_paused`): in runs of standard blocks that begin with nothing but
  scalars, every block is evaluated on a machine that is ready, at any depth.
-/

import BlockEngine.Proofs.Library.Walk
import BlockEngine.Proofs.Machine.Paced

namespace BlockEngine

theorem Machine.Restores.trans {m k l : Machine} (h : m.Restores k) (h' : k.Restores l) : m.Restores l :=
  ⟨h'.program.trans h.program, h'.limits.trans h.limits, h'.operands.trans h.operands, h'.calls.trans h.calls,
    h'.eval.trans h.eval, Variable.Lasts.all_trans h.bindings h'.bindings⟩

namespace Work

/-! ## Waiting -/

/-- Work that waits first does what it does on every machine that it may be resumed on. -/
theorem meets_waitingAt {α : Type} {wait : Machine → Bool} {w : Work α} {Q : α → Machine → Prop} {E : Exits}
    {m : Machine} (hw : ∀ k, m.MayResume k → w.Meets Q E k) (he : wait m = true → E.paused m) :
    (waitingAt wait w).Meets Q E m := by
  unfold Meets waitingAt
  split
  · exact ⟨he ‹_›, hw⟩
  · exact hw m (.refl m)

/-- Where there is nothing to wait for the work is done at once. -/
theorem meets_waitingAt_of_not {α : Type} {wait : Machine → Bool} {w : Work α} {Q : α → Machine → Prop} {E : Exits}
    {m : Machine} (hm : wait m = false) (hw : w.Meets Q E m) : (waitingAt wait w).Meets Q E m := by
  unfold Meets waitingAt
  rwa [if_neg (by rw [hm]; exact Bool.false_ne_true)]

/-- However an interpreter waits, it leaves frames, tags and operands as it does without. -/
theorem paced_keeps_scopes (wait : Machine → Bool) (n : Nat) :
    Settling (evaluatePaced wait n) ∧ Restoring (invokePaced wait n) ∧
      ∀ cursor, Walking fun c depth => walkPaced wait n c depth cursor := by
  induction n with
  | zero =>
    refine ⟨?_, ?_, ?_⟩
    · intro b index mark bare prior m hc hs
      rw [evaluatePaced]
      exact hs
    · intro c args m hs
      rw [invokePaced]
      exact hs
    · intro cursor c m₀ args m hs h
      show GoesOn m₀ args (walkPaced wait 0 c _ cursor) m
      rw [walkPaced]
      exact h.toScoped hs
  | succ n ih =>
    obtain ⟨he, hi, hw⟩ := ih
    refine ⟨?_, ?_, ?_⟩
    · intro b index mark bare prior m hc hs
      rw [evaluatePaced]
      refine meets_waitingAt (fun k hk => ?_) fun _ => hs
      have hr := hk.restores
      refine (evaluateWith_settling he hi b index mark bare prior k (hr.carries.calls_ne hc) (hr.toScoped hs)).weaken
        fun r l hl => ?_
      exact ⟨hr.carries.trans hl.1, hl.2.1.trans hr.eval, hl.2.2.trans hr.operands⟩
    · intro c args m hs
      rw [invokePaced]
      refine meets_waitingAt (fun k hk => ?_) fun _ => hs
      have hr := hk.restores
      exact (invokeWith_restoring (hw {}) c args k (hr.toScoped hs)).weaken fun r l hl => hr.trans hl
    · intro cursor c m₀ args m hs h
      show GoesOn m₀ args (walkPaced wait (n + 1) c _ cursor) m
      rw [walkPaced]
      refine meets_waitingAt (fun k hk => ?_) fun _ => h.toScoped hs
      have hr := hk.restores
      exact walking_turn he hw cursor c m₀ args k hs (h.carries hr.carries hr.eval hr.operands)

/-! ## Regions -/

/-- Orderly work never waits. -/
theorem Meets.ne_paused {w : Work α} {Q : α → Machine → Prop} {lenient : Prop} {m k : Machine}
    {resume : Machine → Outcome α} (h : w.Meets Q (.orderly lenient False) m) : w m ≠ .paused k resume := by
  intro hw
  unfold Meets at h
  rw [hw] at h
  exact h.1

variable {p : Program} {R : Region p} {wait : Machine → Bool}

/-- Waiting for what is not ready is waiting for nothing. -/
theorem paced_keeps_control (hidle : ∀ m : Machine, m.exec.calls = [] → wait m = false)
    (hready : ∀ m : Machine, m.Ready p True → wait m = false) (n : Nat) :
    EvaluatesWell R True True False (evaluatePaced wait n) ∧ InvokesWell R True True False (invokePaced wait n) ∧
      WalksWell R True True False (walkPaced wait n) := by
  induction n with
  | zero =>
    refine ⟨?_, ?_, ?_⟩
    · intro b index mark bare prior kept K m _ _ _ _ _
      rw [evaluatePaced]
      trivial
    · intro c args m _ _ _ _ _
      rw [invokePaced]
      trivial
    · intro c m₀ args cursor m _ _ _ _
      rw [walkPaced]
      trivial
  | succ n ih =>
    obtain ⟨he, hi, hw⟩ := ih
    obtain ⟨hse, hr, -⟩ := paced_keeps_scopes wait n
    refine ⟨?_, ?_, ?_⟩
    · intro b index mark bare prior kept K m hb hent hpr hm hctl
      rw [evaluatePaced]
      exact meets_waitingAt_of_not (hready m hm) (evaluateWith_serves he hse hi hr (.inl trivial) hb hent hpr hm hctl)
    · intro c args m hc hs hp hpl hargs
      rw [invokePaced]
      refine meets_waitingAt_of_not ?_ (invokeWith_keeps (fun hc hs hp hpl hargs =>
        hw hc hs hp (Within.begun (.inl trivial) hc hpl hargs)) hc hs hp hpl hargs)
      by_cases hcalls : m.exec.calls = []
      · exact hidle m hcalls
      · exact hready m ⟨hcalls, hs, hp, hpl⟩
    · intro c m₀ args cursor m hc hs hp h
      rw [walkPaced]
      have hm : m.Ready p True :=
        ⟨h.underway.calls_ne, h.underway.toScoped hs, h.underway.program.trans hp, fun hf => (h.calm hf).1⟩
      refine meets_waitingAt_of_not (hready m hm) ?_
      rw [meets_bind']
      refine (advance_stands he hse hs hp (R.listed hc) (hs.whole p c True) id h).weaken fun turn k hk => ?_
      cases turn with
      | next cursor => exact hw hc hs hp hk
      | stop error => exact hk

/-- A run of a region that begins with scalars does not wait for a machine to be ready. -/
theorem invokePaced_ne_paused (R : Region p) (hidle : ∀ m : Machine, m.exec.calls = [] → wait m = false)
    (hready : ∀ m : Machine, m.Ready p True → wait m = false) {c : ChainId} (hc : R.chains c) {args : List Value}
    (hargs : ∀ v ∈ args, v.IsScalar) {m : Machine} (hs : m.Scoped) (hp : m.program = p) (hpl : m.Plain) (n : Nat)
    {k : Machine} {resume : Machine → Outcome (Except Error Value)} :
    invokePaced wait n c args m ≠ .paused k resume := by
  have h := (paced_keeps_control (R := R) hidle hready n).2.1 hc hs hp (fun _ => hpl) fun v hv _ => hargs v hv
  exact h.ne_paused

end Work

end BlockEngine
