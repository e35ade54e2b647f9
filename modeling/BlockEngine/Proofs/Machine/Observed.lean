/-
  BlockEngine.Proofs.Machine.Observed — watching a run from step to step.

  The observed interpreter is the interpreter with pauses put in: at each turn of a walk, before each
  request of a native and where the native ends, after each body that is closed and after each
  invocation. What it does is what the interpreter does (`worker_elides`): leave those pauses out and the
  runs are the same, whatever the host does at the pauses that are left.

  `Outcome.Path` has the machines that are shown one after the other. `Outcome.Along` is for reasoning about
  them: what is shown next differs by no more than one step from what was shown last.
-/

import BlockEngine.Proofs.Machine.Invocation

namespace BlockEngine

/-! ## Pauses left out -/

namespace Outcome

variable {α β : Type}

/-- The second outcome is the first with some of its pauses left out. -/
inductive Elides : Outcome α → Outcome α → Prop
  | done (a : α) (m : Machine) : Elides (.done a m) (.done a m)
  | fault (f : Fault) (m : Machine) : Elides (.fault f m) (.fault f m)
  | starved (m : Machine) : Elides (.starved m) (.starved m)
  | paused {m : Machine} {resume resume' : Machine → Outcome α} :
      (∀ k, Elides (resume k) (resume' k)) → Elides (.paused m resume) (.paused m resume')
  | unseen {m : Machine} {resume : Machine → Outcome α} {o : Outcome α} :
      Elides (resume m) o → Elides (.paused m resume) o

theorem Elides.refl (o : Outcome α) : o.Elides o := by
  induction o with
  | done a m => exact .done a m
  | fault f m => exact .fault f m
  | starved m => exact .starved m
  | paused m resume ih => exact .paused ih

theorem Elides.bind {o o' : Outcome α} {f f' : α → Machine → Outcome β} (ho : o.Elides o')
    (hf : ∀ a m, (f a m).Elides (f' a m)) : (o.bind f).Elides (o'.bind f') := by
  induction ho with
  | done a m => exact hf a m
  | fault f m => exact .fault f m
  | starved m => exact .starved m
  | paused _ ih => exact .paused ih
  | unseen _ ih => exact .unseen ih

theorem Elides.attempt {o o' : Outcome α} (ho : o.Elides o') : o.attempt.Elides o'.attempt := by
  induction ho with
  | done a m => exact .done _ m
  | fault f m => exact .done _ m
  | starved m => exact .starved m
  | paused _ ih => exact .paused ih
  | unseen _ ih => exact .unseen ih

end Outcome

namespace Work

variable {α β : Type}

/-- The second work is the first with some of its pauses left out. -/
def Elides (w w' : Work α) : Prop := ∀ m, (w m).Elides (w' m)

theorem elides_refl (w : Work α) : w.Elides w := fun m => .refl (w m)

theorem elides_bind {w w' : Work α} {f f' : α → Work β} (hw : w.Elides w') (hf : ∀ a, (f a).Elides (f' a)) :
    (w >>= f).Elides (w' >>= f') := by
  intro m
  rw [bind_apply, bind_apply]
  exact (hw m).bind hf

theorem elides_after {w : Work α} {f f' : α → Work β} (hf : ∀ a, (f a).Elides (f' a)) :
    (w >>= f).Elides (w >>= f') := elides_bind (elides_refl w) hf

theorem elides_before {w w' : Work α} {f : α → Work β} (hw : w.Elides w') : (w >>= f).Elides (w' >>= f) :=
  elides_bind hw fun a => elides_refl (f a)

/-! ## The observed interpreter -/

def seen (w : Work α) : Work α := fun m => .paused m w

def seenAfter (w : Work α) : Work α := w >>= fun a => seen (pure a)

theorem elides_seen {w w' : Work α} (h : w.Elides w') : (seen w).Elides w' := fun m => .unseen (h m)

/-- As `perform`, shown before each request and at the end. -/
def performSeen (invoke : Invoker) : Proc α → Work α
  | .done a => seen (pure a)
  | .crash f => seen (crash f)
  | .ask r go => seen (bind (answer invoke r) fun reply => performSeen invoke (go reply))

/-- As `callNative`, with `perform` for what the native says. -/
def callNativeBy (perform : Proc Value → Work Value) (native : Native) (e : EvalState) (mark : Marker) (base : Nat) :
    Work (Value × EvalState) := do
  let args ← window base
  let outer ← read (·.exec.eval)
  modify fun m =>
    { m with
      exec.eval := some e
      journal := ⟨e.block, e.index, mark, args⟩ :: m.journal }
  let v ← perform (native args)
  let inner ← read (·.exec.eval)
  mapExec fun x => { x with eval := outer }
  truncateOperands base
  return (v, inner.getD e)

/-- As `evaluateWith`, with `perform` for what natives say. -/
def evaluateBy (eval : Evaluator) (perform : Proc Value → Work Value) : Evaluator :=
  fun b index mark bare prior => do
    let d ← kindOf b
    match d.native with
    | none =>
      releasePrior prior
      return .error (.inBlock d.id index .noNative)
    | some native =>
      let base ← read (·.exec.operands.length)
      match ← pushOperands eval d b index mark bare prior with
      | .error e =>
        truncateOperands base
        return .error e
      | .ok () =>
        let canSkip := decide (0 ≤ index) && d.type.opens && mark == .opening
        let (v, e) ← callNativeBy perform native { block := b, index, canSkip } mark base
        match e.error with
        | some x =>
          release v
          return .error (x.blame d.id index)
        | none => return .ok (v, ⟨if 0 ≤ index then e.jump else none, e.skip⟩)

theorem evaluateWith_eq (eval : Evaluator) (invoke : Invoker) :
    evaluateWith eval invoke = evaluateBy eval (perform invoke) := rfl

/-- As `closeBody`, with `look` at the machine once the body is closed. -/
def closeBodyBy (look : Work Closed → Work Closed) (eval : Evaluator) (c : ChainId) (depth : Nat) (cursor : Cursor)
    (t : BlockType) : Work Closed := do
  let layer ← layerAt depth
  if layer = 0 then
    if t == .continuation then
      return .over (.next { cursor with position := cursor.position + 1 })
    else crash (stackFault .control .pop (← read (·.exec.limits.control)))
  else
    let (opener, v) ← takeBody depth layer
    look (closeWith eval c depth t (cursor.closedTo (layer - 1)) opener v)

/-- As `advance`, with `close` for bodies that are closed. -/
def advanceBy (close : Cursor → BlockType → Work Closed) (eval : Evaluator) (c : ChainId) (depth : Nat)
    (cursor : Cursor) : Work Turn := do
  match (← blocksOf c)[cursor.position]? with
  | none => return .stop none
  | some b =>
    match ← read (·.exec.cancelled) with
    | some cause => return .stop (some (.cancelled cause))
    | none =>
      let d ← kindOf b
      let closed ← (if d.type.closes then close cursor d.type else pure (.onward cursor none))
      takeUp eval c depth b d.type closed

mutual

/-- As `evaluate`, observed. -/
def evaluateSeen : Nat → Evaluator
  | 0 => fun _ _ _ _ _ => starve
  | n + 1 => evaluateBy (evaluateSeen n) (performSeen (invokeSeen n))

def invokeSeen : Nat → Invoker
  | 0 => fun _ _ => starve
  | n + 1 => fun c args => seenAfter (invokeWith (fun c depth => walkSeen n c depth {}) c args)

def walkSeen : Nat → ChainId → Nat → Cursor → Work (Option Error)
  | 0, _, _, _ => starve
  | n + 1, c, depth, cursor => seen <|
    bind (advanceBy (closeBodyBy seen (evaluateSeen n) c depth) (evaluateSeen n) c depth cursor) fun
      | .next cursor => walkSeen n c depth cursor
      | .stop error => pure error

end

/-! ## The observed interpreter is the interpreter -/

theorem elides_seenAfter {w w' : Work α} (h : w.Elides w') : (seenAfter w).Elides w' := by
  have hw : (seenAfter w).Elides (w' >>= Pure.pure) := elides_bind h fun a => elides_seen (elides_refl _)
  rwa [bind_pure] at hw

theorem answer_elides {invoke invoke' : Invoker} (hi : ∀ c args, (invoke c args).Elides (invoke' c args))
    (r : Request) : (answer invoke r).Elides (answer invoke' r) := by
  cases r with
  | call c args =>
    cases c with
    | none => exact elides_refl _
    | some c => exact elides_after fun bound => elides_before (hi c bound)
  | _ => exact elides_refl _

theorem perform_elides {invoke invoke' : Invoker} (hi : ∀ c args, (invoke c args).Elides (invoke' c args))
    (p : Proc α) : (perform invoke p).Elides (perform invoke' p) := by
  induction p with
  | done a => exact elides_refl _
  | crash f => exact elides_refl _
  | ask r go ih => exact elides_bind (answer_elides hi r) ih

theorem performSeen_elides {invoke invoke' : Invoker} (hi : ∀ c args, (invoke c args).Elides (invoke' c args))
    (p : Proc α) : (performSeen invoke p).Elides (perform invoke' p) := by
  induction p with
  | done a => exact elides_seen (elides_refl _)
  | crash f => exact elides_seen (elides_refl _)
  | ask r go ih => exact elides_seen (elides_bind (answer_elides hi r) ih)

section

variable {eval eval' : Evaluator}
  (he : ∀ b index mark bare prior, (eval b index mark bare prior).Elides (eval' b index mark bare prior))
include he

theorem pushSlot_elides (d : Definition) (index : Int) (s : Slot) :
    (pushSlot eval d index s).Elides (pushSlot eval' d index s) := by
  unfold pushSlot
  cases s.type with
  | block =>
    cases s.block with
    | none => exact elides_refl _
    | some c => exact elides_before (he c _ _ _ _)
  | _ => exact elides_refl _

theorem pushSlots_elides (d : Definition) (b : BlockId) (index : Int) (is : List Nat) :
    (pushSlots eval d b index is).Elides (pushSlots eval' d b index is) := by
  induction is with
  | nil => exact elides_refl _
  | cons i is ih =>
    refine elides_after fun s => ?_
    cases s with
    | none => exact ih
    | some s =>
      refine elides_bind (pushSlot_elides he d index s) fun r => ?_
      cases r with
      | error e => exact elides_refl _
      | ok _ => exact ih

theorem evaluateBy_elides {perform perform' : Proc Value → Work Value}
    (hp : ∀ p, (perform p).Elides (perform' p)) (b : BlockId) (index : Int) (mark : Marker) (bare : Bool)
    (prior : Option Value) :
    (evaluateBy eval perform b index mark bare prior).Elides (evaluateBy eval' perform' b index mark bare prior) := by
  refine elides_after fun d => ?_
  cases d.native with
  | none => exact elides_refl _
  | some native =>
    refine elides_after fun base => elides_bind ?_ fun r => ?_
    · refine elides_after fun r => ?_
      cases r with
      | error e => exact elides_refl _
      | ok _ =>
        unfold pushDeclared
        dsimp only
        split
        · exact elides_refl _
        · exact elides_after fun n => pushSlots_elides he d b index _
    · cases r with
      | error e => exact elides_refl _
      | ok _ =>
        exact elides_before (elides_after fun _ => elides_after fun _ => elides_after fun _ => elides_before (hp _))

theorem reenter_elides (c : ChainId) (depth : Nat) (cursor : Cursor) (t : BlockType) (opener : Nat) (v : Value) :
    (reenter eval c depth cursor t opener v).Elides (reenter eval' c depth cursor t opener v) :=
  elides_after fun b => elides_before (he b opener .closing true (some v))

theorem redirect_elides (c : ChainId) (depth : Nat) (cursor : Cursor) (target : Nat) (v : Value) :
    (redirect eval c depth cursor target v).Elides (redirect eval' c depth cursor target v) :=
  elides_after fun b => elides_before (he b target .opening false (some v))

theorem enter_elides (c : ChainId) (depth : Nat) (cursor : Cursor) (b : BlockId) (t : BlockType)
    (prior : Option Value) : (enter eval c depth cursor b t prior).Elides (enter eval' c depth cursor b t prior) := by
  refine elides_bind (he b _ _ _ prior) fun r => ?_
  rcases r with e | ⟨v, jump, skip⟩
  · exact elides_refl _
  · refine elides_after fun finished => ?_
    cases finished with
    | true => exact elides_refl _
    | false =>
      cases jump with
      | none => exact elides_refl _
      | some j =>
        refine elides_after fun bs => ?_
        dsimp only
        by_cases hj : bs.length < j
        · simp only [if_pos hj]
          exact elides_refl _
        · simp only [if_neg hj]
          split
          · exact redirect_elides he c depth _ j v
          · exact elides_refl _

theorem closeBodyBy_elides {look : Work Closed → Work Closed} (hl : ∀ {w w'}, w.Elides w' → (look w).Elides w')
    (c : ChainId) (depth : Nat) (cursor : Cursor) (t : BlockType) :
    (closeBodyBy look eval c depth cursor t).Elides (closeBody eval' c depth cursor t) := by
  rw [closeBody_eq]
  refine elides_after fun layer => ?_
  split
  · exact elides_refl _
  · refine elides_after fun frame => hl ?_
    unfold closeWith
    split
    · exact elides_refl _
    · exact reenter_elides he c depth _ t _ _

theorem advanceBy_elides {look : Work Closed → Work Closed} (hl : ∀ {w w'}, w.Elides w' → (look w).Elides w')
    (c : ChainId) (depth : Nat) (cursor : Cursor) :
    (advanceBy (closeBodyBy look eval c depth) eval c depth cursor).Elides (advance eval' c depth cursor) := by
  rw [advance_eq]
  refine elides_after fun bs => ?_
  cases bs[cursor.position]? with
  | none => exact elides_refl _
  | some b =>
    refine elides_after fun cancelled => ?_
    cases cancelled with
    | some cause => exact elides_refl _
    | none =>
      refine elides_after fun d => elides_bind ?_ fun closed => ?_
      · split
        · exact closeBodyBy_elides he hl c depth cursor d.type
        · exact elides_refl _
      · rcases closed with turn | ⟨cursor, prior⟩
        · exact elides_refl _
        · simp only [takeUp]
          split
          · exact elides_refl _
          · exact enter_elides he c depth cursor b _ prior

theorem advance_elides (c : ChainId) (depth : Nat) (cursor : Cursor) :
    (advance eval c depth cursor).Elides (advance eval' c depth cursor) := by
  have hclose : closeBodyBy id eval c depth = closeBody eval c depth :=
    funext fun cursor => funext fun t => (closeBody_eq eval c depth cursor t).symm
  have hadvance : advanceBy (closeBody eval c depth) eval c depth cursor = advance eval c depth cursor :=
    (advance_eq eval c depth cursor).symm
  rw [← hadvance, ← hclose]
  exact advanceBy_elides he id c depth cursor

end

/-- Evaluations, invocations and walks. -/
theorem seen_elides (n : Nat) :
    (∀ b index mark bare prior,
      (evaluateSeen n b index mark bare prior).Elides (evaluate n b index mark bare prior)) ∧
    (∀ c args, (invokeSeen n c args).Elides (invoke n c args)) ∧
    ∀ c depth cursor, (walkSeen n c depth cursor).Elides (walk n c depth cursor) := by
  induction n with
  | zero =>
    refine ⟨fun b index mark bare prior => ?_, fun c args => ?_, fun c depth cursor => ?_⟩
    · rw [evaluateSeen, evaluate]
      exact elides_refl _
    · rw [invokeSeen, invoke]
      exact elides_refl _
    · rw [walkSeen, walk]
      exact elides_refl _
  | succ n ih =>
    obtain ⟨he, hi, hw⟩ := ih
    refine ⟨fun b index mark bare prior => ?_, fun c args => ?_, fun c depth cursor => ?_⟩
    · rw [evaluateSeen, evaluate, evaluateWith_eq]
      exact evaluateBy_elides he (performSeen_elides hi) b index mark bare prior
    · rw [invokeSeen, invoke]
      refine elides_seenAfter (elides_after fun base => elides_after fun _ => elides_after fun depth => ?_)
      exact elides_before (hw c depth {})
    · rw [walkSeen, walk]
      refine elides_seen (elides_bind (advanceBy_elides he elides_seen c depth cursor) fun turn => ?_)
      cases turn with
      | next cursor => exact hw c depth cursor
      | stop error => exact elides_refl _

theorem runMains_elides {invoke invoke' : Invoker} (hi : ∀ c args, (invoke c args).Elides (invoke' c args))
    (cs : List ChainId) (results : List Value) :
    (runMains invoke cs results).Elides (runMains invoke' cs results) := by
  induction cs generalizing results with
  | nil => exact elides_refl _
  | cons c cs ih =>
    refine elides_after fun isMain => ?_
    split
    · exact ih results
    · refine elides_bind (fun m => (hi c [] m).attempt) fun r => ?_
      rcases r with f | (e | v)
      · exact elides_refl _
      · exact elides_refl _
      · exact ih _

/-- An observed run is the run. -/
theorem worker_elides (n : Nat) (r : RegistryId) (cs : List ChainId) (cause : Option CancelCause) :
    (worker (invokeSeen n) r cs cause).Elides (worker (invoke n) r cs cause) :=
  elides_after fun _ => elides_after fun _ => runMains_elides (seen_elides n).2.1 cs []

end Work

end BlockEngine
