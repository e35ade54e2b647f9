/-
  BlockEngine.Proofs.Machine.Watched — a run that waits at its checkpoints, or breaks down at its first
  error.

  Two things stop a run by an error: a block that fails by itself, and a checkpoint that finds the run
  cancelled (`Stop`). A watch makes the run wait right before each checkpoint, so that its host may
  cancel it there, and makes it break down where it is stopped first. Without either the run is what it
  always is (`invokeWatched_none`), and the waits are all that waiting adds (`worker_waits`).
-/

import BlockEngine.Proofs.Machine.Observed

namespace BlockEngine

inductive Stop where
  /-- A block fails by itself, at a position of the chain that is run, or in an argument. -/
  | block (b : BlockId) (chain : Option ChainId) (index : Int) (cause : Error)
  /-- A checkpoint finds the run cancelled. -/
  | cancelled (cause : CancelCause)

structure Watch where
  /-- It waits before each checkpoint. -/
  waits : Bool := false
  /-- It breaks down with this fault where it is stopped. -/
  halts : Option (Stop → Fault) := none

namespace Work

variable {α : Type} (w : Watch)

/-- Breaks down at a stop, if the watch says so, and else does the work. -/
def meet (s : Stop) (work : Work α) : Work α :=
  match w.halts with
  | some f => crash (f s)
  | none => work

/-- Waits before the work if a checkpoint comes next, and the watch says so. -/
def await (c : ChainId) (cursor : Cursor) (work : Work α) : Work α := fun m =>
  if w.waits && decide (cursor.position < (m.program.chain c).length) then .paused m work else work m

/-- Reports the error that an evaluation ended with; nothing that was evaluated for it was stopped. -/
def reportAt (b : BlockId) (chain : Option ChainId) (index : Int) :
    Except Error (Value × Asked) → Work (Except Error (Value × Asked))
  | .ok r => return .ok r
  | .error e => meet w (.block b chain index e.root) (return .error e)

def endWalk : Option Error → Work (Option Error)
  | some (.cancelled cause) => meet w (.cancelled cause) (return some (.cancelled cause))
  | error => return error

mutual

/-- As `evaluate`, watched, of a block of the chain that is run, or of one in an argument. -/
def evaluateWatched : Nat → Option ChainId → Evaluator
  | 0, _ => fun _ _ _ _ _ => starve
  | n + 1, chain => fun b index mark bare prior =>
    evaluateWith (evaluateWatched n none) (invokeWatched n) b index mark bare prior >>= reportAt w b chain index

def invokeWatched : Nat → Invoker
  | 0 => fun _ _ => starve
  | n + 1 => invokeWith fun c depth => walkWatched n c depth {}

def walkWatched : Nat → ChainId → Nat → Cursor → Work (Option Error)
  | 0, _, _, _ => starve
  | n + 1, c, depth, cursor => await w c cursor <|
    advance (evaluateWatched n (some c)) c depth cursor >>= fun
      | .next cursor => walkWatched n c depth cursor
      | .stop error => endWalk w error

end

/-! ## Without a watch -/

/-- Where stops are let pass, errors go on as they are. -/
theorem reportAt_none (waits : Bool) (b : BlockId) (chain : Option ChainId) (index : Int) :
    reportAt ⟨waits, none⟩ b chain index = Pure.pure := by
  funext r
  cases r <;> rfl

theorem endWalk_none (waits : Bool) (error : Option Error) : endWalk ⟨waits, none⟩ error = return error := by
  unfold endWalk
  split <;> rfl

/-- Unwatched it is the interpreter. -/
theorem watched_none (n : Nat) :
    (∀ chain, evaluateWatched {} n chain = evaluate n) ∧ invokeWatched {} n = invoke n ∧ walkWatched {} n = walk n := by
  induction n with
  | zero =>
    refine ⟨fun chain => ?_, ?_, ?_⟩
    · rw [evaluateWatched, evaluate]
    · rw [invokeWatched, invoke]
    · funext c depth cursor
      rw [walkWatched, walk]
  | succ n ih =>
    obtain ⟨he, hi, hw⟩ := ih
    refine ⟨fun chain => ?_, ?_, ?_⟩
    · funext b index mark bare prior
      rw [evaluateWatched, evaluate, he, hi]
      show evaluateWith (evaluate n) (invoke n) b index mark bare prior >>= reportAt {} b chain index = _
      rw [reportAt_none, bind_pure]
    · rw [invokeWatched, invoke, hw]
    · funext c depth cursor
      rw [walkWatched, walk, he, hw]
      refine congrArg (advance (evaluate n) c depth cursor >>= ·) (funext fun turn => ?_)
      cases turn with
      | next cursor => rfl
      | stop error => exact endWalk_none false error

theorem invokeWatched_none (n : Nat) : invokeWatched {} n = invoke n := (watched_none n).2.1

/-! ## Waiting -/

/-- What is said of work holds where it waits first, if it holds wherever it is resumed. -/
theorem meets_await {Q : α → Machine → Prop} {E : Exits} {m : Machine} {c : ChainId} {cursor : Cursor} {work : Work α}
    (h : ∀ k, m.MayResume k → work.Meets Q E k) (hp : E.paused m) : (await w c cursor work).Meets Q E m := by
  unfold Meets await
  split
  · exact ⟨hp, h⟩
  · exact h m (.refl m)

theorem elides_await {work work' : Work α} {c : ChainId} {cursor : Cursor} (h : work.Elides work') :
    (await w c cursor work).Elides work' := by
  intro m
  unfold await
  split
  · exact .unseen (h m)
  · exact h m

theorem await_patient (f : Option (Stop → Fault)) (c : ChainId) (cursor : Cursor) (work : Work α) :
    await ⟨false, f⟩ c cursor work = work := rfl

/-- Waiting adds nothing but the waits. -/
theorem watched_waits (f : Option (Stop → Fault)) (n : Nat) :
    (∀ chain b index mark bare prior, (evaluateWatched ⟨true, f⟩ n chain b index mark bare prior).Elides
      (evaluateWatched ⟨false, f⟩ n chain b index mark bare prior)) ∧
    (∀ c args, (invokeWatched ⟨true, f⟩ n c args).Elides (invokeWatched ⟨false, f⟩ n c args)) ∧
    ∀ c depth cursor, (walkWatched ⟨true, f⟩ n c depth cursor).Elides (walkWatched ⟨false, f⟩ n c depth cursor) := by
  induction n with
  | zero =>
    refine ⟨fun chain b index mark bare prior => ?_, fun c args => ?_, fun c depth cursor => ?_⟩
    · rw [evaluateWatched, evaluateWatched]
      exact elides_refl _
    · rw [invokeWatched, invokeWatched]
      exact elides_refl _
    · rw [walkWatched, walkWatched]
      exact elides_refl _
  | succ n ih =>
    obtain ⟨he, hi, hw⟩ := ih
    refine ⟨fun chain b index mark bare prior => ?_, fun c args => ?_, fun c depth cursor => ?_⟩
    · rw [evaluateWatched, evaluateWatched, evaluateWith_eq, evaluateWith_eq]
      refine elides_before ?_
      exact evaluateBy_elides (he none) (perform_elides hi) b index mark bare prior
    · rw [invokeWatched, invokeWatched]
      exact elides_after fun base => elides_after fun _ => elides_after fun depth => elides_before (hw c depth {})
    · rw [walkWatched, walkWatched, await_patient]
      refine elides_await _ (elides_bind (advance_elides (he (some c)) c depth cursor) fun turn => ?_)
      cases turn with
      | next cursor => exact hw c depth cursor
      | stop error => exact elides_refl _

/-- A run that waits before each checkpoint is the run. -/
theorem worker_waits (n : Nat) (r : RegistryId) (cs : List ChainId) (cause : Option CancelCause) :
    (worker (invokeWatched ⟨true, none⟩ n) r cs cause).Elides (worker (invoke n) r cs cause) := by
  rw [← invokeWatched_none]
  exact elides_after fun _ => elides_after fun _ => runMains_elides (watched_waits none n).2.1 cs []

/-! ## What is left behind -/

theorem meets_meet {s : Stop} {work : Work α} {Q : α → Machine → Prop} {E : Exits} {m : Machine}
    (h : work.Meets Q E m) (hf : ∀ f, E.fault f m) : (meet w s work).Meets Q E m := by
  unfold meet
  split
  · exact hf _
  · exact h

theorem settled_meet (s : Stop) (r : Except Error (Value × Asked)) : (meet w s (return r)).Settled :=
  fun m hc hs => meets_meet w (settled_pure r m hc hs) fun _ => hs

theorem goesOn_await {m₀ m : Machine} {args : List Value} {c : ChainId} {cursor : Cursor} {work : Work α}
    (hs : m₀.Scoped) (hm : m₀.Underway args m) (h : ∀ k, m₀.Underway args k → GoesOn m₀ args work k) :
    GoesOn m₀ args (await w c cursor work) m :=
  meets_await w (fun k hk => h k (hm.of_eq hk.1 (by rw [hk.2]))) (hm.toScoped hs)

/-- As `keeps_scopes`, watched. -/
theorem watched_keeps_scopes (n : Nat) :
    (∀ chain, Settling (evaluateWatched w n chain)) ∧ Restoring (invokeWatched w n) ∧
      ∀ cursor, Walking fun c depth => walkWatched w n c depth cursor := by
  induction n with
  | zero =>
    refine ⟨?_, ?_, ?_⟩
    · intro chain b index mark bare prior m hc hs
      rw [evaluateWatched]
      exact hs
    · intro c args m hs
      rw [invokeWatched]
      exact hs
    · intro cursor c m₀ args m hs h
      show GoesOn m₀ args (walkWatched w 0 c _ cursor) m
      rw [walkWatched]
      exact h.toScoped hs
  | succ n ih =>
    obtain ⟨he, hi, hw⟩ := ih
    refine ⟨?_, ?_, ?_⟩
    · intro chain b index mark bare prior
      rw [evaluateWatched]
      refine stays_bind (fun h h' => ⟨h'.1.trans h.1, h'.2.trans h.2⟩)
        (evaluateWith_settling (he none) hi b index mark bare prior) fun r => ?_
      cases r with
      | ok v => exact settled_pure _
      | error e => exact settled_meet w _ _
    · rw [invokeWatched]
      exact invokeWith_restoring (hw {})
    · intro cursor c m₀ args m hs h
      show GoesOn m₀ args (walkWatched w (n + 1) c _ cursor) m
      rw [walkWatched]
      refine goesOn_await w hs h fun k hk => goesOn_bind (goesOn_advance (he (some c)) hs hk c cursor) fun turn k hk => ?_
      cases turn with
      | next cursor => exact hw cursor c m₀ args k hs hk
      | stop error =>
        show GoesOn m₀ args (endWalk w error) k
        unfold endWalk
        split
        · exact meets_meet w hk fun _ => hk.toScoped hs
        · exact hk

end Work

end BlockEngine
