/-
  BlockEngine.Proofs.Machine.Paced — what a run never changes, wherever it waits.

  The interpreter that may wait before every block, invocation and turn of a walk (`invokePaced`)
  is, where it never waits, the interpreter itself (`invokePaced_never`).

  The program, the capacities and whether the interpreter is in use are constants of a run: a
  property that says no more of a machine is `Constant`. Such a property is maintained wherever work is
  seen, if it holds on every machine that the work is resumed on.

  Proved of every program and all natives: constants are kept (`paced_steady`), by every run from
  the linking of its program on (`runMains_maintains`).
-/

import BlockEngine.Proofs.Machine.Invocation

namespace BlockEngine

/-- A property of machines that says nothing but of the program, the capacities and whether the
    interpreter is in use. -/
def Constant (P : Machine → Prop) : Prop :=
  ∀ ⦃m k : Machine⦄, P m → k.program = m.program → k.exec.limits = m.exec.limits →
    k.exec.running = m.exec.running → P k

namespace Outcome

variable {α β : Type} {P : Machine → Prop} {Q : α → Prop} {R : β → Prop}

def Maintains (P : Machine → Prop) (Q : α → Prop) : Outcome α → Prop
  | .done a m => Q a ∧ P m
  | .fault _ m => P m
  | .paused m resume => P m ∧ ∀ k, P k → (resume k).Maintains P Q
  | .starved m => P m

theorem Maintains.bind {o : Outcome α} {f : α → Machine → Outcome β} (h : o.Maintains P Q)
    (hf : ∀ a m, Q a → P m → (f a m).Maintains P R) : (o.bind f).Maintains P R := by
  induction o with
  | done a m => exact hf a m h.1 h.2
  | fault x m => exact h
  | starved m => exact h
  | paused m resume ih => exact ⟨h.1, fun k hk => ih k (h.2 k hk)⟩

theorem Maintains.attempt {o : Outcome α} (h : o.Maintains P Q) : o.attempt.Maintains P fun _ => True := by
  induction o with
  | done a m => exact ⟨trivial, h.2⟩
  | fault x m => exact ⟨trivial, h⟩
  | starved m => exact h
  | paused m resume ih => exact ⟨h.1, fun k hk => ih k (h.2 k hk)⟩

theorem Maintains.unpaused {o : Outcome α} (h : o.Maintains P Q) : o.unpaused.Maintains P Q := by
  induction o with
  | paused m resume ih => exact ih m (h.2 m h.1)
  | _ => exact h

end Outcome

namespace Work

variable {α β : Type}

/-! ## Waiting -/

/-- Does the work, but waits first on some machines. -/
def waitingAt (wait : Machine → Bool) (w : Work α) : Work α := fun m => if wait m then .paused m w else w m

mutual

/-- As `evaluate`, waiting at some machines. -/
def evaluatePaced (wait : Machine → Bool) : Nat → Evaluator
  | 0 => fun _ _ _ _ _ => starve
  | n + 1 => fun b index mark bare prior =>
    waitingAt wait (evaluateWith (evaluatePaced wait n) (invokePaced wait n) b index mark bare prior)

def invokePaced (wait : Machine → Bool) : Nat → Invoker
  | 0 => fun _ _ => starve
  | n + 1 => fun c args => waitingAt wait (invokeWith (fun c depth => walkPaced wait n c depth {}) c args)

def walkPaced (wait : Machine → Bool) : Nat → ChainId → Nat → Cursor → Work (Option Error)
  | 0, _, _, _ => starve
  | n + 1, c, depth, cursor => waitingAt wait <|
    bind (advance (evaluatePaced wait n) c depth cursor) fun
      | .next cursor => walkPaced wait n c depth cursor
      | .stop error => pure error

end

theorem waitingAt_never (w : Work α) : waitingAt (fun _ => false) w = w := rfl

/-- Where it never waits it is the interpreter. -/
theorem paced_never (n : Nat) :
    evaluatePaced (fun _ => false) n = evaluate n ∧ invokePaced (fun _ => false) n = invoke n ∧
      walkPaced (fun _ => false) n = walk n := by
  induction n with
  | zero =>
    refine ⟨?_, ?_, ?_⟩
    · rw [evaluatePaced, evaluate]
    · rw [invokePaced, invoke]
    · funext c depth cursor
      rw [walkPaced, walk]
  | succ n ih =>
    obtain ⟨he, hi, hw⟩ := ih
    refine ⟨?_, ?_, ?_⟩
    · rw [evaluatePaced, evaluate, he, hi]
      rfl
    · rw [invokePaced, invoke, hw]
      rfl
    · funext c depth cursor
      rw [walkPaced, walk, he, hw]
      exact waitingAt_never _

theorem invokePaced_never (n : Nat) : invokePaced (fun _ => false) n = invoke n := (paced_never n).2.1

/-! ## Effects -/

section

variable {P : Machine → Prop}

/-- The work is done on a machine with the property, and keeps it. -/
def Maintains (P : Machine → Prop) (Q : α → Prop) (w : Work α) : Prop := ∀ m : Machine, P m → (w m).Maintains P Q

abbrev Steady (P : Machine → Prop) (w : Work α) : Prop := w.Maintains P fun _ => True

theorem maintains_bind {Q : α → Prop} {R : β → Prop} {w : Work α} {f : α → Work β} (hw : w.Maintains P Q)
    (hf : ∀ a, Q a → (f a).Maintains P R) : (w >>= f).Maintains P R := by
  intro m hm
  rw [bind_apply]
  exact (hw m hm).bind fun a k ha hk => hf a ha k hk

theorem steady_bind {R : β → Prop} {w : Work α} {f : α → Work β} (hw : w.Steady P) (hf : ∀ a, (f a).Maintains P R) :
    (w >>= f).Maintains P R := maintains_bind hw fun a _ => hf a

theorem maintains_pure {Q : α → Prop} {a : α} (h : Q a) : (Pure.pure a : Work α).Maintains P Q := fun _ hm => ⟨h, hm⟩

theorem steady_pure (a : α) : (Pure.pure a : Work α).Steady P := maintains_pure trivial

theorem steady_read (f : Machine → α) : (read f).Steady P := fun _ hm => ⟨trivial, hm⟩

theorem steady_crash (f : Fault) : (crash f : Work α).Steady P := fun _ hm => hm

theorem steady_starve : (starve : Work α).Steady P := fun _ hm => hm

theorem steady_waitingAt {Q : α → Prop} (wait : Machine → Bool) {w : Work α} (h : w.Maintains P Q) :
    (waitingAt wait w).Maintains P Q := by
  intro m hm
  unfold waitingAt
  split
  · exact ⟨hm, fun k hk => h k hk⟩
  · exact h m hm

end

section

variable {P : Machine → Prop} (hP : Constant P)
include hP

theorem steady_onStorage (f : Storage → α × Storage) : (onStorage f).Steady P := fun _ hm => ⟨trivial, hP hm rfl rfl rfl⟩

theorem steady_modify {f : Machine → Machine} (h : ∀ m, (f m).program = m.program)
    (hl : ∀ m, (f m).exec.limits = m.exec.limits) (hr : ∀ m, (f m).exec.running = m.exec.running) :
    (modify f).Steady P := fun m hm => ⟨trivial, hP hm (h m) (hl m) (hr m)⟩

theorem steady_release (v : Value) : (release v).Steady P := steady_modify hP (fun _ => rfl) (fun _ => rfl) fun _ => rfl

theorem steady_pushOperand (v : Value) : (pushOperand v).Steady P := by
  intro m hm
  unfold pushOperand
  split
  · exact ⟨trivial, hP hm rfl rfl rfl⟩
  · exact hm

theorem steady_pushControl (f : ControlFrame) : (pushControl f).Steady P := by
  intro m hm
  unfold pushControl
  split
  · exact ⟨trivial, hP hm rfl rfl rfl⟩
  · exact hm

theorem steady_pushVariable (v : Variable) : (pushVariable v).Steady P := by
  intro m hm
  unfold pushVariable
  split
  · exact ⟨trivial, hP hm rfl rfl rfl⟩
  · exact hm

theorem steady_pushCall (f : CallFrame) : (pushCall f).Steady P := by
  intro m hm
  unfold pushCall
  split
  · exact ⟨trivial, hP hm rfl rfl rfl⟩
  · exact hm

theorem steady_popBody : popBody.Steady P := by
  intro m hm
  unfold popBody
  split
  · exact ⟨trivial, hP hm rfl rfl rfl⟩
  · exact hP hm rfl rfl rfl
  · exact hm

theorem steady_popData : popData.Steady P := by
  intro m hm
  unfold popData
  split
  · exact ⟨trivial, hP hm rfl rfl rfl⟩
  · exact hm

theorem steady_popCall : popCall.Steady P := by
  intro m hm
  unfold popCall
  split
  · exact ⟨trivial, hP hm rfl rfl rfl⟩
  · exact hm

theorem steady_truncateOperands (n : Nat) : (truncateOperands n).Steady P :=
  steady_modify hP (fun _ => rfl) (fun _ => rfl) fun _ => rfl

theorem steady_mapFrame (depth : Nat) (f : CallFrame → CallFrame) : (mapExec (Exec.mapFrame depth f)).Steady P := by
  refine steady_modify hP (fun _ => rfl) (fun m => ?_) fun m => ?_
  all_goals
    dsimp only [Exec.mapFrame]
    split <;> rfl

end

/-! ## Natives -/

section

variable {P : Machine → Prop} (hP : Constant P) {invoke : Invoker} (hi : ∀ c args, (invoke c args).Steady P)
include hP hi

theorem call_steady (c : Option ChainId) (args : List Value) : (call invoke c args).Steady P := by
  have hfail : ∀ e, (fail e).Steady P := fun e => steady_modify hP (fun _ => rfl) (fun _ => rfl) fun _ => rfl
  cases c with
  | none => exact steady_bind (hfail _) fun _ => steady_pure _
  | some c =>
    refine steady_bind (steady_onStorage hP _) fun bound => steady_bind (hi c bound) fun r => ?_
    refine steady_bind (steady_modify hP (fun _ => rfl) (fun _ => rfl) fun _ => rfl) fun _ => ?_
    cases r with
    | ok v => exact steady_pure v
    | error e => exact steady_bind (hfail e) fun _ => steady_pure _

/-- Nothing that a native asks for changes a constant. -/
theorem answer_steady (r : Request) : (answer invoke r).Steady P := by
  cases r with
  | skipBody =>
    intro m hm
    show (skipBody m).Maintains P _
    unfold skipBody
    split
    · exact hm
    · split
      · exact ⟨trivial, hP hm rfl rfl rfl⟩
      · exact hm
  | finish v =>
    refine steady_modify hP (fun m => ?_) (fun m => ?_) fun m => ?_
    all_goals split <;> rfl
  | declare name v => exact steady_bind (steady_read _) fun _ => steady_pushVariable hP _
  | assign name v =>
    intro m hm
    show (assign name v m).Maintains P _
    unfold assign
    split
    · exact ⟨trivial, hm⟩
    · exact ⟨trivial, hP hm rfl rfl rfl⟩
  | fetch name =>
    refine steady_bind (steady_read _) fun x => ?_
    cases x with
    | none => exact steady_pure _
    | some x => exact steady_bind (steady_onStorage hP _) fun _ => steady_pure _
  | pushData v => exact steady_pushControl hP _
  | popData => exact steady_popData hP
  | argument i =>
    refine steady_bind (steady_read _) fun calls => ?_
    cases calls with
    | nil => exact steady_pure _
    | cons f fs =>
      dsimp only
      split
      · exact steady_onStorage hP _
      · exact steady_pure _
  | call c args => exact call_steady hP hi c args
  | print line =>
    intro m hm
    show (print line m).Maintains P _
    unfold print
    split
    · exact ⟨trivial, hm⟩
    · exact ⟨trivial, hP hm rfl rfl rfl⟩
  | pause => exact fun m hm => ⟨hm, fun k hk => ⟨trivial, hk⟩⟩
  | cancelRun cause =>
    refine steady_modify hP (fun m => ?_) (fun m => ?_) fun m => ?_
    all_goals dsimp only
    all_goals split <;> rfl
  | _ => exact fun _ hm => ⟨trivial, hP hm rfl rfl rfl⟩

theorem perform_steady (p : Proc α) : (perform invoke p).Steady P := by
  induction p with
  | done a => exact steady_pure a
  | crash f => exact steady_crash f
  | ask r go ih => exact steady_bind (answer_steady hP hi r) ih

end

/-! ## Evaluation -/

section

variable {P : Machine → Prop} (hP : Constant P)
include hP

theorem releasePrior_steady (prior : Option Value) : (releasePrior prior).Steady P := by
  cases prior with
  | none => exact steady_pure ()
  | some v => exact steady_release hP v

theorem pushAll_steady (vs : List Value) : (pushAll vs).Steady P := by
  induction vs with
  | nil => exact steady_pure ()
  | cons v vs ih => exact steady_bind (steady_pushOperand hP v) fun _ => ih

theorem pushHidden_steady (d : Definition) (index : Int) (mark : Marker) (prior : Option Value) :
    (pushHidden d index mark prior).Steady P := by
  rw [pushHidden_eq]
  split
  · exact steady_bind (releasePrior_steady hP prior) fun _ => steady_pure _
  · exact steady_bind (pushAll_steady hP _) fun _ => steady_pure _

end

def SteadyEval (P : Machine → Prop) (eval : Evaluator) : Prop :=
  ∀ b index mark bare prior, (eval b index mark bare prior).Steady P

section

variable {P : Machine → Prop} (hP : Constant P) {eval : Evaluator} (he : SteadyEval P eval)
include hP he

theorem pushSlot_steady (d : Definition) (index : Int) (s : Slot) : (pushSlot eval d index s).Steady P := by
  unfold pushSlot
  split
  · exact steady_bind (steady_pushOperand hP _) fun _ => steady_pure _
  · exact steady_bind (steady_pushOperand hP _) fun _ => steady_pure _
  · split
    · exact steady_crash _
    · refine steady_bind (he _ _ _ _ _) fun r => ?_
      rcases r with e | ⟨v, a⟩
      · exact steady_pure _
      · exact steady_bind (steady_pushOperand hP v) fun _ => steady_pure _
  · exact steady_pure _
  · exact steady_pure _

theorem pushSlots_steady (d : Definition) (b : BlockId) (index : Int) (is : List Nat) :
    (pushSlots eval d b index is).Steady P := by
  induction is with
  | nil => exact steady_pure _
  | cons i is ih =>
    refine steady_bind (steady_read _) fun s => ?_
    split
    · exact ih
    · refine steady_bind (pushSlot_steady hP he d index _) fun r => ?_
      rcases r with e | -
      · exact steady_pure _
      · exact ih

theorem pushOperands_steady (d : Definition) (b : BlockId) (index : Int) (mark : Marker) (bare : Bool)
    (prior : Option Value) : (pushOperands eval d b index mark bare prior).Steady P := by
  refine steady_bind (pushHidden_steady hP d index mark prior) fun r => ?_
  rcases r with e | -
  · exact steady_pure _
  · show (pushDeclared eval d b index mark bare).Steady P
    unfold pushDeclared
    split
    · exact steady_pure _
    · exact steady_bind (steady_read _) fun n => pushSlots_steady hP he d b index _

theorem evaluateWith_steady {invoke : Invoker} (hi : ∀ c args, (invoke c args).Steady P) :
    SteadyEval P (evaluateWith eval invoke) := by
  intro b index mark bare prior
  refine steady_bind (steady_read _) fun d => ?_
  split
  · exact steady_bind (releasePrior_steady hP prior) fun _ => steady_pure _
  next native _ =>
    refine steady_bind (steady_read _) fun base =>
      steady_bind (pushOperands_steady hP he d b index mark bare prior) fun r => ?_
    rcases r with e | -
    · exact steady_bind (steady_truncateOperands hP _) fun _ => steady_pure _
    · have hmodify : ∀ {f : Machine → Machine}, (∀ m, (f m).program = m.program) →
          (∀ m, (f m).exec.limits = m.exec.limits) → (∀ m, (f m).exec.running = m.exec.running) →
          (modify f).Steady P := fun h hl hr => steady_modify hP h hl hr
      have hcall : ∀ e, (callNative invoke native e mark base).Steady P := fun e =>
        steady_bind (steady_read _) fun args => steady_bind (steady_read _) fun _ =>
          steady_bind (hmodify (fun _ => rfl) (fun _ => rfl) fun _ => rfl) fun _ =>
            steady_bind (perform_steady hP hi (native args)) fun _ => steady_bind (steady_read _) fun _ =>
              steady_bind (hmodify (fun _ => rfl) (fun _ => rfl) fun _ => rfl) fun _ =>
                steady_bind (steady_truncateOperands hP _) fun _ => steady_pure _
      refine steady_bind (hcall _) fun ve => ?_
      dsimp only
      split
      · exact steady_bind (steady_release hP _) fun _ => steady_pure _
      · exact steady_pure _

end

/-! ## The walk -/

section

variable {P : Machine → Prop}

theorem blockAt_steady (c : ChainId) (i : Nat) : (blockAt c i).Steady P := by
  refine steady_bind (steady_read _) fun bs => ?_
  split
  · exact steady_pure _
  · exact steady_crash _

theorem badJump_steady (c : ChainId) (i : Nat) : (badJump c i).Steady P :=
  steady_bind (blockAt_steady c i) fun _ => steady_bind (steady_read _) fun _ => steady_pure _

variable (hP : Constant P)
include hP

theorem openBody_steady (depth i : Nat) (v : Value) : (openBody depth i v).Steady P :=
  steady_bind (steady_pushControl hP _) fun _ => steady_bind (steady_read _) fun _ =>
    steady_bind (steady_mapFrame hP _ _) fun _ => steady_pure _

theorem leave_steady (c : ChainId) (depth : Nat) (cursor : Cursor) (i target : Nat) (v : Value) (skip : Bool) :
    (leave c depth cursor i target v skip).Steady P := by
  refine steady_bind (blockAt_steady c i) fun b => steady_bind (steady_read _) fun d => ?_
  split
  · exact steady_bind (openBody_steady hP depth i v) fun _ => steady_pure _
  · exact steady_bind (steady_release hP v) fun _ => steady_pure _

theorem passOver_steady (depth : Nat) (cursor : Cursor) (t : BlockType) : (passOver depth cursor t).Steady P := by
  unfold passOver
  split
  · exact steady_bind (openBody_steady hP _ _ _) fun _ => steady_pure _
  · exact steady_pure _

theorem closeScope_steady (depth layer : Nat) : (closeScope depth layer).Steady P :=
  steady_modify hP (fun _ => rfl) (fun _ => rfl) fun _ => rfl

end

section

variable {P : Machine → Prop} (hP : Constant P) {eval : Evaluator} (he : SteadyEval P eval) (c : ChainId) (depth : Nat)
  (cursor : Cursor)
include hP he

theorem reenter_steady (t : BlockType) (opener : Nat) (v : Value) :
    (reenter eval c depth cursor t opener v).Steady P := by
  refine steady_bind (blockAt_steady c opener) fun b => steady_bind (he _ _ _ _ _) fun r => ?_
  rcases r with e | ⟨w, asked⟩
  · exact steady_pure _
  refine steady_bind (steady_read _) fun finished => ?_
  split
  · exact steady_bind (steady_release hP w) fun _ => steady_pure _
  split
  · refine steady_bind (steady_release hP w) fun _ => steady_bind (steady_read _) fun bs => ?_
    split
    · exact steady_bind (badJump_steady c opener) fun _ => steady_pure _
    · exact steady_pure _
  · split
    · exact steady_bind (steady_release hP w) fun _ => steady_pure _
    · exact steady_pure _

theorem closeBody_steady (t : BlockType) : (closeBody eval c depth cursor t).Steady P := by
  rw [closeBody_eq]
  refine steady_bind (steady_read _) fun layer => ?_
  split
  · split
    · exact steady_pure _
    · exact steady_bind (steady_read _) fun _ => steady_crash _
  · refine steady_bind (steady_bind (steady_popBody hP) fun _ => steady_bind (closeScope_steady hP _ _) fun _ =>
      steady_bind (steady_mapFrame hP _ _) fun _ => steady_pure _) fun frame => ?_
    show (closeWith eval c depth t _ frame.1 frame.2).Steady P
    unfold closeWith
    split
    · refine steady_bind (steady_release hP _) fun _ => ?_
      split <;> exact steady_pure _
    · exact reenter_steady hP he c depth _ t _ _

theorem redirect_steady (target : Nat) (v : Value) : (redirect eval c depth cursor target v).Steady P := by
  refine steady_bind (blockAt_steady c target) fun b => steady_bind (he _ _ _ _ _) fun r => ?_
  rcases r with e | ⟨w, asked⟩
  · exact steady_pure _
  refine steady_bind (steady_read _) fun finished => ?_
  split
  · exact steady_bind (steady_release hP w) fun _ => steady_pure _
  · exact steady_bind (steady_read _) fun bs => leave_steady hP _ _ _ _ _ _ _

theorem enter_steady (b : BlockId) (t : BlockType) (prior : Option Value) :
    (enter eval c depth cursor b t prior).Steady P := by
  refine steady_bind (he _ _ _ _ _) fun r => ?_
  rcases r with e | ⟨w, asked⟩
  · exact steady_pure _
  refine steady_bind (steady_read _) fun finished => ?_
  split
  · exact steady_bind (steady_release hP w) fun _ => steady_pure _
  split
  · exact leave_steady hP _ _ _ _ _ _ _
  · refine steady_bind (steady_read _) fun bs => ?_
    dsimp only
    split
    · exact steady_bind (steady_release hP w) fun _ => steady_bind (badJump_steady c _) fun _ => steady_pure _
    · split
      · exact redirect_steady hP he c depth _ _ w
      · exact leave_steady hP _ _ _ _ _ _ _

theorem advance_steady : (advance eval c depth cursor).Steady P := by
  rw [advance_eq]
  refine steady_bind (steady_read _) fun bs => ?_
  split
  · exact steady_pure _
  refine steady_bind (steady_read _) fun cancelled => ?_
  split
  · exact steady_pure _
  refine steady_bind (steady_read _) fun d => steady_bind ?_ fun closed => ?_
  · split
    · exact closeBody_steady hP he c depth cursor _
    · exact steady_pure _
  · rcases closed with turn | ⟨cursor, prior⟩
    · exact steady_pure _
    · simp only [takeUp]
      split
      · exact passOver_steady hP depth cursor _
      · exact enter_steady hP he c depth cursor _ _ _

end

section

variable {P : Machine → Prop} (hP : Constant P)
include hP

theorem invokeWith_steady {walk : ChainId → Nat → Work (Option Error)} (hw : ∀ c depth, (walk c depth).Steady P)
    (c : ChainId) (args : List Value) : (invokeWith walk c args).Steady P := by
  refine steady_bind (steady_read _) fun base => steady_bind (steady_pushCall hP _) fun _ =>
    steady_bind (steady_read _) fun depth => steady_bind (hw c depth) fun error =>
      steady_bind (closeScope_steady hP _ _) fun _ =>
        steady_bind (steady_modify hP (fun _ => rfl) (fun _ => rfl) fun _ => rfl) fun _ => ?_
  refine steady_bind (steady_bind (steady_read _) fun _ => steady_bind (steady_mapFrame hP _ _) fun _ =>
    steady_pure _) fun v => steady_bind (steady_popCall hP) fun _ => ?_
  split
  · exact steady_bind (steady_release hP v) fun _ => steady_pure _
  · exact steady_pure _

/-- However an interpreter waits, it keeps the constants. -/
theorem paced_steady (wait : Machine → Bool) (n : Nat) :
    SteadyEval P (evaluatePaced wait n) ∧ (∀ c args, (invokePaced wait n c args).Steady P) ∧
      ∀ c depth cursor, (walkPaced wait n c depth cursor).Steady P := by
  induction n with
  | zero =>
    refine ⟨fun b index mark bare prior => ?_, fun c args => ?_, fun c depth cursor => ?_⟩
    · rw [evaluatePaced]
      exact steady_starve
    · rw [invokePaced]
      exact steady_starve
    · rw [walkPaced]
      exact steady_starve
  | succ n ih =>
    obtain ⟨he, hi, hw⟩ := ih
    refine ⟨fun b index mark bare prior => ?_, fun c args => ?_, fun c depth cursor => ?_⟩
    · rw [evaluatePaced]
      exact steady_waitingAt wait (evaluateWith_steady hP he hi b index mark bare prior)
    · rw [invokePaced]
      exact steady_waitingAt wait (invokeWith_steady hP (fun c depth => hw c depth {}) c args)
    · rw [walkPaced]
      refine steady_waitingAt wait (steady_bind (advance_steady hP he c depth cursor) fun turn => ?_)
      cases turn with
      | next cursor => exact hw c depth cursor
      | stop error => exact steady_pure _

end

/-! ## Runs -/

/-- Entry chains in order keep what each of them keeps, and do not end as a run still running. -/
theorem runMains_maintains {P : Machine → Prop} {invoke : Invoker} (hi : ∀ c args, (invoke c args).Steady P)
    (cs : List ChainId) (results : List Value) :
    (runMains invoke cs results).Maintains P fun e => e.status ≠ .running := by
  induction cs generalizing results with
  | nil => exact maintains_pure (by simp)
  | cons c cs ih =>
    refine steady_bind (steady_read _) fun hmain => ?_
    split
    · exact ih results
    · refine steady_bind (fun m hm => (hi c [] m hm).attempt) fun r => ?_
      rcases r with f | e | v
      · exact maintains_pure (by simp)
      · refine maintains_pure ?_
        dsimp only
        split <;> simp
      · exact ih _

end Work

end BlockEngine
