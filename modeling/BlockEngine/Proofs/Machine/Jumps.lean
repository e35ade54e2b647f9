/-
  BlockEngine.Proofs.Machine.Jumps — which jumps are taken, which are reported, and which are lost.

  A native asks to continue elsewhere by any integer; the last one it asks for counts. One turn of the walk
  visits up to three blocks of the chain: an opener is re-entered, a block is entered, and a continuation
  can be left for another branch, which is entered in its place. Here each turn keeps a record of its visits
  and of what their natives last asked for (`Visit`), and the walk is made of such turns.

  Proved of every run and of every turn, on any machine (`jumps_taken_or_reported`):
  - a jump within the chain, its end included, is taken;
  - one past the end ends the run with an error that names the block, if the block was entered in its
    place or re-entered;
  - any other is lost: the turn goes on as if there was none.

  `jumps_lost_unreported` shows two runs that end well although a jump of theirs leads out of the chain.
-/

import BlockEngine.Proofs.Machine.Errors
import BlockEngine.Proofs.Structured.Turn

namespace BlockEngine

open Structured (visit)

/-! ## What a native last asks for -/

def Request.wish : Request → Option Int
  | .jumpTo i => some i
  | _ => none

/-- The procedure with the last position that it asks to continue at, `wish` if it asks for none. -/
def Proc.noting {α : Type} (wish : Option Int) : Proc α → Proc (α × Option Int)
  | .done a => .done (a, wish)
  | .crash f => .crash f
  | .ask r go => .ask r fun reply => (go reply).noting (r.wish.or wish)

/-- Where the walk is to continue for it: nowhere else, for a negative position. -/
def target (wish : Option Int) : Option Nat := wish.bind fun i => if 0 ≤ i then some i.toNat else none

inductive Entry where
  /-- It stands at the cursor. -/
  | entered
  /-- Its body is closed. -/
  | reentered
  /-- A continuation asked for it. -/
  | redirected
  deriving DecidableEq

structure Visit where
  entry : Entry
  position : Nat
  block : BlockId
  /-- What its native last asked for, unless the evaluation failed or ended the invocation. -/
  wish : Option (Option Int)
  deriving DecidableEq

namespace Work

/-! ## Evaluations with what was asked for -/

abbrev Recaller :=
  (b : BlockId) → (index : Int) → (mark : Marker) → (bare : Bool) → (prior : Option Value) →
    Work (Except Error ((Value × Asked) × Option Int))

def callRecalled (invoke : Invoker) (native : Native) (e : EvalState) (mark : Marker) (base : Nat) :
    Work ((Value × EvalState) × Option Int) := do
  let args ← window base
  let outer ← read (·.exec.eval)
  modify fun m =>
    { m with
      exec.eval := some e
      journal := ⟨e.block, e.index, mark, args⟩ :: m.journal }
  let (v, wish) ← perform invoke ((native args).noting none)
  let inner ← read (·.exec.eval)
  mapExec fun x => { x with eval := outer }
  truncateOperands base
  return ((v, inner.getD e), wish)

def evaluateRecalledWith (eval : Evaluator) (invoke : Invoker) : Recaller :=
  fun b index mark bare prior => do
    let d ← kindOf b
    match d.native with
    | none =>
      releasePrior prior
      return .error (.inBlock d.id index .noNative)
    | some native =>
      let base ← read (·.exec.operands.length)
      match ← pushOperands eval d b index mark bare prior with
      | .error e =>
        truncateOperands base
        return .error e
      | .ok () =>
        let canSkip := decide (0 ≤ index) && d.type.opens && mark == .opening
        let (r, wish) ← callRecalled invoke native { block := b, index, canSkip } mark base
        return (← report d index r).map (·, wish)

def evaluateRecalled : Nat → Recaller
  | 0 => fun _ _ _ _ _ => starve
  | n + 1 => evaluateRecalledWith (evaluate n) (invoke n)

section

variable {α : Type} {p : Program}

theorem perform_noting (invoke : Invoker) (q : Proc α) (wish : Option Int) :
    Prod.fst <$> perform invoke (q.noting wish) = perform invoke q := by
  induction q generalizing wish with
  | done a => rfl
  | crash f => rfl
  | ask r go ih =>
    show Prod.fst <$> (answer invoke r >>= fun reply => perform invoke ((go reply).noting _)) = _
    rw [map_bind]
    exact bind_congr fun reply => ih reply _

theorem callNative_recalled (invoke : Invoker) (native : Native) (e : EvalState) (mark : Marker) (base : Nat) :
    Prod.fst <$> callRecalled invoke native e mark base = callNative invoke native e mark base := by
  unfold callRecalled callNative
  simp only [map_bind]
  refine bind_congr fun args => bind_congr fun outer => bind_congr fun _ => ?_
  rw [← perform_noting invoke (native args) none, bind_map_left]
  simp

theorem evaluateWith_recalled (eval : Evaluator) (invoke : Invoker) (b : BlockId) (index : Int) (mark : Marker)
    (bare : Bool) (prior : Option Value) :
    Except.map Prod.fst <$> evaluateRecalledWith eval invoke b index mark bare prior =
      evaluateWith eval invoke b index mark bare prior := by
  unfold evaluateRecalledWith evaluateWith
  rw [map_bind]
  refine bind_congr fun d => ?_
  cases d.native with
  | none => simp [Except.map]
  | some native =>
    dsimp only
    rw [map_bind]
    refine bind_congr fun base => ?_
    rw [map_bind]
    refine bind_congr fun r => ?_
    cases r with
    | error e => simp [Except.map]
    | ok u =>
      dsimp only
      rw [← callNative_recalled, map_bind, bind_map_left]
      refine bind_congr fun ⟨r, wish⟩ => ?_
      unfold report
      cases r.2.error <;> simp [Except.map]

theorem evaluate_recalled (n : Nat) (b : BlockId) (index : Int) (mark : Marker) (bare : Bool) (prior : Option Value) :
    Except.map Prod.fst <$> evaluateRecalled n b index mark bare prior = evaluate n b index mark bare prior := by
  cases n with
  | zero => rfl
  | succ n => exact evaluateWith_recalled _ _ b index mark bare prior

/-- The native at work is to continue where its last wish says. -/
def Wishes (wish : Option Int) (m : Machine) : Prop := ∃ s, m.exec.eval = some s ∧ s.jump = target wish

theorem Wishes.of_eq {wish : Option Int} {m k : Machine} (h : Wishes wish m) (he : k.exec.eval = m.exec.eval) :
    Wishes wish k := by
  obtain ⟨s, hs, hj⟩ := h
  exact ⟨s, he.trans hs, hj⟩

theorem Wishes.mapEval {wish : Option Int} {m : Machine} (h : Wishes wish m) {f : EvalState → EvalState}
    (hf : ∀ s, (f s).jump = s.jump) : Wishes wish { m with exec := m.exec.mapEval f } := by
  obtain ⟨s, hs, hj⟩ := h
  exact ⟨f s, by rw [Exec.mapEval, hs]; rfl, (hf s).trans hj⟩

theorem Brings.wishes {Q : α → Prop} {w : Work α} (hw : w.Brings p Q) {wish : Option Int} {m : Machine}
    (hm : m.program = p) (h : Wishes wish m) : w.Meets (fun _ => Wishes wish) (.all fun _ => True) m :=
  (hw m hm).weaken fun _ _ ⟨_, he, _⟩ => h.of_eq he

section

variable {invoke : Invoker} (hi : ∀ p c args, (invoke c args).Spares p)
include hi

theorem call_wishes (c : Option ChainId) (args : List Value) {wish : Option Int} {m : Machine} (h : Wishes wish m) :
    (call invoke c args).Meets (fun _ => Wishes wish) (.all fun _ => True) m := by
  unfold call
  cases c with
  | none =>
    dsimp only
    rw [meets_bind]
    exact h.mapEval fun _ => rfl
  | some c =>
    dsimp only
    rw [meets_bind, meets_onStorage, meets_bind]
    refine (hi _ c _ _ rfl).weaken fun r k ⟨_, he, _⟩ => ?_
    have hk : Wishes wish k := h.of_eq he
    rw [meets_bind, meets_modify]
    cases r with
    | ok v => exact hk.of_eq rfl
    | error e =>
      dsimp only
      rw [meets_bind]
      exact (hk.of_eq (k := { k with storage := _ }) rfl).mapEval fun _ => rfl

/-- Only a request to continue elsewhere changes what the native last asked for. -/
theorem answer_wishes (r : Request) {wish : Option Int} {m : Machine} (h : Wishes wish m) :
    (answer invoke r).Meets (fun _ => Wishes (r.wish.or wish)) (.all fun _ => True) m := by
  cases r with
  | jumpTo i =>
    obtain ⟨s, hs, -⟩ := h
    refine ⟨{ s with jump := if 0 ≤ i then some i.toNat else none }, ?_, rfl⟩
    show m.exec.eval.map _ = _
    rw [hs]
    rfl
  | skipBody =>
    obtain ⟨s, hs, hj⟩ := h
    show skipBody.Meets _ _ m
    unfold Meets skipBody
    rw [hs]
    dsimp only
    split
    · exact ⟨_, rfl, hj⟩
    · trivial
  | fail e => exact h.mapEval fun _ => rfl
  | call c args => exact call_wishes hi c args h
  | _ => exact Brings.wishes (answer_spares invoke rfl) rfl h

theorem perform_wishes (q : Proc α) {wish : Option Int} {m : Machine} (h : Wishes wish m) :
    (perform invoke (q.noting wish)).Meets (fun r => Wishes r.2) (.all fun _ => True) m := by
  induction q generalizing wish m with
  | done a => exact h
  | crash f => exact trivial
  | ask r go ih =>
    show (answer invoke r >>= fun reply => perform invoke ((go reply).noting _)).Meets _ _ m
    rw [meets_bind]
    exact (answer_wishes hi r h).weaken fun reply k hk => ih reply hk

theorem callRecalled_wishes (native : Native) {e : EvalState} (he : e.jump = none) (mark : Marker) (base : Nat)
    (m : Machine) :
    (callRecalled invoke native e mark base).Meets (fun r _ => r.1.2.jump = target r.2) (.all fun _ => True) m := by
  unfold callRecalled
  simp only [window, meets_bind, meets_read, meets_modify]
  have hnone : ∀ k : Machine, k.exec.eval = some e → Wishes none k := fun k hk => ⟨e, hk, he⟩
  refine (perform_wishes hi _ (hnone _ rfl)).weaken fun r k hk => ?_
  obtain ⟨s, hs, hj⟩ := hk
  simp only [meets_mapExec]
  show (k.exec.eval.getD e).jump = _
  rw [hs]
  exact hj

end

theorem invoke_spares (n : Nat) (p : Program) (c : ChainId) (args : List Value) : (invoke n c args).Spares p :=
  fun m hm => ((errors_sourced p n).2.1 c args m hm).weaken fun _ _ h => ⟨h.1, h.2.1, trivial⟩

theorem evaluate_spares (n : Nat) (p : Program) (b : BlockId) (index : Int) (mark : Marker) (bare : Bool)
    (prior : Option Value) : (evaluate n b index mark bare prior).Spares p :=
  fun m hm => ((errors_sourced p n).1 b index mark bare prior m hm).weaken fun _ _ h => ⟨h.1, h.2.1, trivial⟩

/-- What is known of a result that something else was made of. -/
theorem meets_map {β : Type} {f : α → β} {w : Work α} {v : Work β} (hw : f <$> w = v) {Q : β → Machine → Prop}
    {E : Exits} {m : Machine} (h : v.Meets Q E m) : w.Meets (fun a k => Q (f a) k) E m := by
  rw [← hw, ← bind_pure_comp, meets_bind] at h
  exact h

/-- An evaluation at a position of the chain asks the walk to continue where its native last asked for. -/
theorem evaluateRecalled_tells (n : Nat) (b : BlockId) (position : Nat) (mark : Marker) (bare : Bool)
    (prior : Option Value) :
    (evaluateRecalled n b position mark bare prior).Brings p
      fun r => ∀ v asked wish, r = .ok ((v, asked), wish) → asked.jump = target wish := by
  intro m hm
  have hspares := meets_map (evaluate_recalled n b position mark bare prior)
    (evaluate_spares n p b position mark bare prior m hm)
  have hasked : (evaluateRecalled n b position mark bare prior).Meets
      (fun r _ => ∀ v asked wish, r = .ok ((v, asked), wish) → asked.jump = target wish) (.all fun _ => True) m := by
    cases n with
    | zero => exact trivial
    | succ n =>
      show (evaluateRecalledWith (evaluate n) (invoke n) b position mark bare prior).Meets _ _ m
      unfold evaluateRecalledWith
      rw [meets_bind]
      refine (brings_kindOf b m rfl).weaken fun d k _ => ?_
      split
      · rw [meets_bind]
        exact (releasePrior_spares prior k rfl).weaken fun _ _ _ _ _ _ h => (by cases h)
      · rw [meets_bind, meets_read, meets_bind]
        refine (pushOperands_sourced (fun b i mk br pr => (errors_sourced k.program n).1 b i mk br pr) d b position mark
          bare prior k rfl).weaken fun r l _ => ?_
        rcases r with e | -
        · exact fun _ _ _ h => (by cases h)
        · dsimp only
          rw [meets_bind]
          refine (callRecalled_wishes (fun p c args => invoke_spares n p c args) _ rfl mark _ l).weaken
            fun ⟨r, wish⟩ l hwish => ?_
          rw [meets_bind]
          show (report d position r).Meets _ _ l
          unfold report
          split
          · exact fun _ _ _ h => (by cases h)
          · intro v asked wish' h
            cases h
            rw [if_pos (Int.natCast_nonneg position)]
            exact hwish
  refine (Outcome.Meets.both hspares hasked).mono (fun r k h => ⟨h.1.1, h.1.2.1, h.2⟩) ?_ ?_ ?_
  all_goals intros; trivial

end

/-! ## Turns with their visits -/

/-- Visits a block of the chain; the error that ended the invocation, or none where a native did. -/
def visitRecalled (n : Nat) (depth : Nat) (entry : Entry) (b : BlockId) (position : Nat) (mark : Marker) (bare : Bool)
    (prior : Option Value) : Work (Except (Option Error) (Value × Asked) × Visit) := do
  match ← evaluateRecalled n b position mark bare prior with
  | .error e => return (.error (some e), ⟨entry, position, b, none⟩)
  | .ok ((v, asked), wish) =>
    if ← isFinished depth then
      release v
      return (.error none, ⟨entry, position, b, none⟩)
    else return (.ok (v, asked), ⟨entry, position, b, some wish⟩)

def afterReentry (c : ChainId) (cursor : Cursor) (t : BlockType) (opener : Nat) :
    Except (Option Error) (Value × Asked) → Work Closed
  | .error e => return .over (.stop e)
  | .ok (v, asked) => do
    match asked.jump with
    | some j =>
      release v
      if (← blocksOf c).length < j then return .over (.stop (some (← badJump c opener)))
      else return .over (.next { cursor with position := j, bareNext := v.isOmitted })
    | none =>
      if t == .terminator then
        release v
        return .over (.next { cursor with position := cursor.position + 1 })
      else return .onward cursor (some v)

def afterRedirection (c : ChainId) (depth : Nat) (cursor : Cursor) (position : Nat) :
    Except (Option Error) (Value × Asked) → Work Turn
  | .error e => return .stop e
  | .ok (v, asked) => do
    let size := (← blocksOf c).length
    let next := match asked.jump with
      | some j => if j ≤ size then j else position + 1
      | none => position + 1
    leave c depth cursor position next v asked.skip

def redirectRecalled (n : Nat) (c : ChainId) (depth : Nat) (cursor : Cursor) (position : Nat) (v : Value) :
    Work (Turn × List Visit) := do
  let b ← blockAt c position
  let r ← visitRecalled n depth .redirected b position .opening false (some v)
  return (← afterRedirection c depth cursor position r.1, [r.2])

/-- What becomes of the turn when the block at the cursor was entered, with `redirect` to leave it for another. -/
def afterEntry {α : Type} (redirect : Nat → Value → Work α) (ends : Turn → α) (c : ChainId) (depth : Nat)
    (cursor : Cursor) (t : BlockType) : Except (Option Error) (Value × Asked) → Work α
  | .error e => return ends (.stop e)
  | .ok (v, asked) => do
    match asked.jump with
    | none => return ends (← leave c depth cursor cursor.position (cursor.position + 1) v asked.skip)
    | some j =>
      let size := (← blocksOf c).length
      if size < j then
        release v
        return ends (.stop (some (← badJump c cursor.position)))
      else if t == .continuation && j != cursor.position + 1 && decide (j < size) then redirect j v
      else return ends (← leave c depth cursor cursor.position j v asked.skip)

def enterRecalled (n : Nat) (c : ChainId) (depth : Nat) (cursor : Cursor) (b : BlockId) (t : BlockType)
    (prior : Option Value) : Work (Turn × List Visit) := do
  let r ← visitRecalled n depth .entered b cursor.position .opening (cursor.bareNext || prior.any (·.isOmitted)) prior
  let cursor := { cursor with bareNext := false }
  let turn ← afterEntry (redirectRecalled n c depth cursor) (·, []) c depth cursor t r.1
  return (turn.1, r.2 :: turn.2)

def reenterRecalled (n : Nat) (c : ChainId) (depth : Nat) (cursor : Cursor) (t : BlockType) (opener : Nat) (v : Value) :
    Work (Closed × List Visit) := do
  let b ← blockAt c opener
  let r ← visitRecalled n depth .reentered b opener .closing true (some v)
  return (← afterReentry c cursor t opener r.1, [r.2])

def closeRecalled (n : Nat) (c : ChainId) (depth : Nat) (cursor : Cursor) (t : BlockType) :
    Work (Closed × List Visit) := do
  let layer ← layerAt depth
  if layer = 0 then
    if t == .continuation then return (.over (.next { cursor with position := cursor.position + 1 }), [])
    else crash (stackFault .control .pop (← read (·.exec.limits.control)))
  else
    let (opener, v) ← takeBody depth layer
    let cursor := cursor.closedTo (layer - 1)
    if cursor.suppressed.isSome then
      release v
      if t == .terminator then return (.over (.next { cursor with position := cursor.position + 1 }), [])
      else return (.onward cursor none, [])
    else reenterRecalled n c depth cursor t opener v

def takeUpRecalled (n : Nat) (c : ChainId) (depth : Nat) (b : BlockId) (t : BlockType) :
    Closed → Work (Turn × List Visit)
  | .over turn => return (turn, [])
  | .onward cursor prior => do
    if cursor.suppressed.isSome then return (← passOver depth cursor t, [])
    else enterRecalled n c depth cursor b t prior

def turnRecalled (n : Nat) (c : ChainId) (depth : Nat) (cursor : Cursor) : Work (Turn × List Visit) := do
  match (← blocksOf c)[cursor.position]? with
  | none => return (.stop none, [])
  | some b =>
    match ← read (·.exec.cancelled) with
    | some cause => return (.stop (some (.cancelled cause)), [])
    | none =>
      let t := (← kindOf b).type
      let closed ← (if t.closes then closeRecalled n c depth cursor t else Pure.pure (.onward cursor none, []))
      let turn ← takeUpRecalled n c depth b t closed.1
      return (turn.1, closed.2 ++ turn.2)

/-! ## They are the turns of the walk -/

section

variable (n : Nat) (c : ChainId) (depth : Nat) (cursor : Cursor)

theorem visit_recalled (entry : Entry) (b : BlockId) (position : Nat) (mark : Marker) (bare : Bool)
    (prior : Option Value) :
    Prod.fst <$> visitRecalled n depth entry b position mark bare prior =
      visit (evaluate n) depth b position mark bare prior := by
  unfold visitRecalled visit
  rw [← evaluate_recalled, map_bind, bind_map_left]
  refine bind_congr fun r => ?_
  rcases r with e | ⟨⟨v, asked⟩, wish⟩
  · rfl
  · dsimp only [Except.map]
    rw [map_bind]
    refine bind_congr fun finished => ?_
    cases finished <;> rfl

/-- What a turn does with the outcome of a visit does not depend on the record of it. -/
theorem visited_bind {α β : Type} {g : α → β} {f : Except (Option Error) (Value × Asked) → Work β}
    {h : Except (Option Error) (Value × Asked) × Visit → Work α} (hh : ∀ r, g <$> h r = f r.1) (entry : Entry)
    (b : BlockId) (position : Nat) (mark : Marker) (bare : Bool) (prior : Option Value) :
    g <$> (visitRecalled n depth entry b position mark bare prior >>= h) =
      visit (evaluate n) depth b position mark bare prior >>= f := by
  rw [map_bind, ← visit_recalled n depth entry, bind_map_left]
  exact bind_congr hh

theorem redirect_recalled (position : Nat) (v : Value) :
    Prod.fst <$> redirectRecalled n c depth cursor position v = redirect (evaluate n) c depth cursor position v := by
  have hvisit : redirect (evaluate n) c depth cursor position v = (do
      let b ← blockAt c position
      visit (evaluate n) depth b position .opening false (some v) >>= afterRedirection c depth cursor position) := by
    unfold redirect visit
    refine bind_congr fun b => ?_
    rw [bind_assoc]
    refine bind_congr fun r => ?_
    cases r with
    | error e => rfl
    | ok va =>
      dsimp only
      rw [bind_assoc]
      refine bind_congr fun finished => ?_
      cases finished <;> rfl
  rw [hvisit, redirectRecalled, map_bind]
  exact bind_congr fun b => visited_bind n depth (fun r => by simp) ..

theorem afterEntry_recalled {α β : Type} {redirect : Nat → Value → Work α} {ends : Turn → α} {f : α → β} (t : BlockType)
    (r : Except (Option Error) (Value × Asked)) :
    f <$> afterEntry redirect ends c depth cursor t r =
      afterEntry (fun j v => f <$> redirect j v) (fun turn => f (ends turn)) c depth cursor t r := by
  unfold afterEntry
  rcases r with e | ⟨v, asked⟩
  · simp
  · dsimp only
    cases asked.jump with
    | none => simp
    | some j =>
      dsimp only
      rw [map_bind]
      refine bind_congr fun bs => ?_
      split
      · simp
      · split <;> simp

theorem enter_recalled (b : BlockId) (t : BlockType) (prior : Option Value) :
    Prod.fst <$> enterRecalled n c depth cursor b t prior = enter (evaluate n) c depth cursor b t prior := by
  have hvisit : enter (evaluate n) c depth cursor b t prior =
      visit (evaluate n) depth b cursor.position .opening (cursor.bareNext || prior.any (·.isOmitted)) prior >>=
        afterEntry (redirect (evaluate n) c depth { cursor with bareNext := false }) id c depth
          { cursor with bareNext := false } t := by
    rw [enter_eq]
    refine bind_congr fun r => ?_
    rcases r with e | ⟨v, asked⟩
    · rfl
    · dsimp only [afterEntry, id]
      cases asked.jump with
      | none => simp
      | some j => simp
  rw [hvisit, enterRecalled]
  refine visited_bind n depth (fun r => ?_) ..
  rw [map_bind]
  simp only [map_pure]
  rw [bind_pure_comp, afterEntry_recalled]
  simp only [redirect_recalled]
  rfl

theorem reenter_recalled (t : BlockType) (opener : Nat) (v : Value) :
    Prod.fst <$> reenterRecalled n c depth cursor t opener v = reenter (evaluate n) c depth cursor t opener v := by
  have hvisit : reenter (evaluate n) c depth cursor t opener v = (do
      let b ← blockAt c opener
      visit (evaluate n) depth b opener .closing true (some v) >>= afterReentry c cursor t opener) := by
    rw [reenter_eq]
    refine bind_congr fun b => bind_congr fun r => ?_
    rcases r with e | ⟨v, asked⟩ <;> rfl
  rw [hvisit, reenterRecalled, map_bind]
  exact bind_congr fun b => visited_bind n depth (fun r => by simp) ..

theorem close_recalled (t : BlockType) :
    Prod.fst <$> closeRecalled n c depth cursor t = closeBody (evaluate n) c depth cursor t := by
  rw [closeBody_eq, closeRecalled, map_bind]
  refine bind_congr fun layer => ?_
  split
  · split
    · simp
    · exact map_bind ..
  · rw [map_bind]
    refine bind_congr fun frame => ?_
    dsimp only [closeWith]
    split
    · rw [map_bind]
      refine bind_congr fun _ => ?_
      split <;> simp
    · exact reenter_recalled ..

theorem takeUp_recalled (b : BlockId) (t : BlockType) (closed : Closed) :
    Prod.fst <$> takeUpRecalled n c depth b t closed = takeUp (evaluate n) c depth b t closed := by
  unfold takeUpRecalled takeUp
  rcases closed with turn | ⟨cursor, prior⟩
  · simp
  · dsimp only
    split
    · simp
    · exact enter_recalled ..

theorem turn_recalled : Prod.fst <$> turnRecalled n c depth cursor = advance (evaluate n) c depth cursor := by
  rw [advance_eq, turnRecalled, map_bind]
  refine bind_congr fun bs => ?_
  cases bs[cursor.position]? with
  | none => simp
  | some b =>
    dsimp only
    rw [map_bind]
    refine bind_congr fun cancelled => ?_
    cases cancelled with
    | some cause => simp
    | none =>
      dsimp only
      rw [map_bind]
      refine bind_congr fun d => ?_
      split
      · rw [map_bind, ← close_recalled, bind_map_left]
        refine bind_congr fun closed => ?_
        rw [← takeUp_recalled]
        simp
      · rw [pure_bind]
        show _ = takeUp (evaluate n) c depth b d.type (.onward cursor none)
        rw [← takeUp_recalled]
        simp

end

end Work

/-! ## What becomes of jumps -/

/-- The walk goes on from `j`, at once or by entering another branch there. -/
def GoesTo (j : Nat) (turn : Turn) (rest : List Visit) : Prop :=
  (rest = [] ∧ ∃ y : Cursor, turn = .next y ∧ y.position = j) ∨
    ∃ s ss, rest = s :: ss ∧ s.entry = .redirected ∧ s.position = j

/-- The walk goes on below, as if nothing was asked for. A closed body is left past the block at the cursor that
    closes it, or for that block, if it continues the group. -/
def Visit.GoesBelow (x : Cursor) (turn : Turn) (rest : List Visit) (s : Visit) : Prop :=
  match s.entry with
  | .reentered => GoesTo (x.position + 1) turn rest ∨ ∃ t ts, rest = t :: ts ∧ t.entry = .entered ∧ t.position = x.position
  | _ => GoesTo (s.position + 1) turn rest

/-- What becomes of a visit in a turn from the cursor `x`, where these are the visits after it. -/
structure Visit.Lawful (p : Program) (c : ChainId) (x : Cursor) (turn : Turn) (rest : List Visit) (s : Visit) :
    Prop where
  stands : (p.chain c)[s.position]? = some s.block
  /-- The evaluation failed, or ended the invocation. -/
  ended : s.wish = none → rest = [] ∧ ∃ e, turn = .stop e
  taken : ∀ i, s.wish = some (some i) → 0 ≤ i → i ≤ (p.chain c).length → GoesTo i.toNat turn rest
  reported : ∀ i, s.wish = some (some i) → (p.chain c).length < i → s.entry ≠ .redirected →
    rest = [] ∧ turn = .stop (some (.inBlock (p.kindOf s.block).id s.position .badJump))
  lost : ∀ i, s.wish = some (some i) → i < 0 ∨ (p.chain c).length < i ∧ s.entry = .redirected →
    s.GoesBelow x turn rest
  /-- Nothing was asked for. -/
  unasked : s.wish = some none → s.GoesBelow x turn rest

/-- What becomes of the visits of a turn. -/
def LawfulTurn (p : Program) (c : ChainId) (x : Cursor) (turn : Turn) : List Visit → Prop
  | [] => True
  | s :: rest => s.Lawful p c x turn rest ∧ LawfulTurn p c x turn rest

theorem target_eq_some {wish : Option Int} {j : Nat} : target wish = some j ↔ wish = some (j : Int) := by
  unfold target
  cases wish with
  | none => simp
  | some i =>
    simp only [Option.bind_some, Option.ite_none_right_eq_some, Option.some.injEq]
    omega

namespace Visit.Lawful

variable {p : Program} {c : ChainId} {x : Cursor} {turn : Turn} {rest : List Visit} {entry : Entry} {b : BlockId}
  {position j : Nat} {wish : Option Int} (hb : (p.chain c)[position]? = some b)
include hb

theorem of_ended {e : Option Error} (ht : turn = .stop e) : Lawful p c x turn [] ⟨entry, position, b, none⟩ where
  stands := hb
  ended _ := ⟨rfl, e, ht⟩
  taken := nofun
  reported := nofun
  lost := nofun
  unasked := nofun

theorem of_taken (hw : target wish = some j) (hj : j ≤ (p.chain c).length) (hgo : GoesTo j turn rest) :
    Lawful p c x turn rest ⟨entry, position, b, some wish⟩ := by
  rw [target_eq_some] at hw
  subst hw
  refine ⟨hb, nofun, ?_, ?_, ?_, nofun⟩
  · rintro _ ⟨⟩ - -
    exact hgo
  · rintro _ ⟨⟩ hlt
    omega
  · rintro _ ⟨⟩ hi
    omega

theorem of_reported (hw : target wish = some j) (hj : (p.chain c).length < j) (he : entry ≠ .redirected)
    (ht : turn = .stop (some (.inBlock (p.kindOf b).id position .badJump))) :
    Lawful p c x turn [] ⟨entry, position, b, some wish⟩ := by
  rw [target_eq_some] at hw
  subst hw
  refine ⟨hb, nofun, ?_, ?_, ?_, nofun⟩
  · rintro _ ⟨⟩ - hle
    omega
  · rintro _ ⟨⟩ - -
    exact ⟨rfl, ht⟩
  · rintro _ ⟨⟩ (hi | ⟨-, hi⟩)
    · omega
    · exact absurd hi he

theorem of_lost (hw : ∀ j, target wish = some j → (p.chain c).length < j ∧ entry = .redirected)
    (hgo : GoesBelow x turn rest ⟨entry, position, b, some wish⟩) :
    Lawful p c x turn rest ⟨entry, position, b, some wish⟩ := by
  have hw' : ∀ i : Int, 0 ≤ i → wish = some i → (p.chain c).length < i ∧ entry = .redirected := by
    intro i hi he
    obtain ⟨j, rfl⟩ := Int.eq_ofNat_of_zero_le hi
    exact_mod_cast hw j (target_eq_some.2 he)
  refine ⟨hb, nofun, ?_, ?_, fun _ _ _ => hgo, fun _ => hgo⟩
  · rintro i ⟨⟩ hi hle
    have := hw' i hi rfl
    omega
  · rintro i ⟨⟩ hlt he
    exact absurd (hw' i (by omega) rfl).2 he

end Visit.Lawful

namespace Work

section

variable {p : Program} {c : ChainId} {x : Cursor}

/-- How the walk was asked to go on by a visit with this outcome. -/
inductive Told : Except (Option Error) (Value × Asked) → Option (Option Int) → Prop
  | ended (e : Option Error) : Told (.error e) none
  | on (v : Value) (asked : Asked) (wish : Option Int) : asked.jump = target wish → Told (.ok (v, asked)) (some wish)

theorem visitRecalled_tells (n : Nat) (depth : Nat) (entry : Entry) (b : BlockId) (position : Nat) (mark : Marker)
    (bare : Bool) (prior : Option Value) :
    (visitRecalled n depth entry b position mark bare prior).Brings p
      fun r => ∃ wish, r.2 = ⟨entry, position, b, wish⟩ ∧ Told r.1 wish := by
  refine brings_bind (evaluateRecalled_tells n b position mark bare prior) fun r hr => ?_
  rcases r with e | ⟨⟨v, asked⟩, wish⟩
  · exact brings_pure ⟨none, rfl, .ended _⟩
  · refine spares_bind (spares_read _) fun finished => ?_
    split
    · exact spares_bind (spares_release v) fun _ => brings_pure ⟨none, rfl, .ended _⟩
    · exact brings_pure ⟨some wish, rfl, .on v asked wish (hr v asked wish rfl)⟩

theorem brings_blocksOf (c : ChainId) : (blocksOf c).Brings p fun bs => bs = p.chain c := fun _ hm => ⟨hm, rfl, hm ▸ rfl⟩

theorem brings_blockAt (c : ChainId) (i : Nat) : (blockAt c i).Brings p fun b => (p.chain c)[i]? = some b := by
  refine brings_bind (brings_blocksOf c) fun bs hbs => ?_
  subst hbs
  split
  · rename_i b hb
    exact brings_pure hb
  · exact brings_crash _

theorem badJump_names {b : BlockId} {i : Nat} (hb : (p.chain c)[i]? = some b) :
    (badJump c i).Brings p fun e => e = .inBlock (p.kindOf b).id i .badJump := by
  refine brings_bind (brings_blockAt c i) fun b' hb' => ?_
  cases hb.symm.trans hb'
  exact brings_bind (brings_kindOf b) fun d hd => brings_pure (by rw [hd])

theorem leave_goes (c : ChainId) (depth : Nat) (cursor : Cursor) (position target : Nat) (v : Value) (skip : Bool) :
    (leave c depth cursor position target v skip).Brings p fun turn => GoesTo target turn [] := by
  refine spares_bind (blockAt_spares c position) fun b => spares_bind (spares_read _) fun d => ?_
  split
  · exact spares_bind (openBody_spares depth position v) fun layer => brings_pure (.inl ⟨rfl, _, rfl, rfl⟩)
  · exact spares_bind (spares_release v) fun _ => brings_pure (.inl ⟨rfl, _, rfl, rfl⟩)

variable {b : BlockId} {position : Nat} (hb : (p.chain c)[position]? = some b)
include hb

theorem redirection_lawful {r : Except (Option Error) (Value × Asked)} {wish : Option (Option Int)} (h : Told r wish)
    (depth : Nat) (cursor : Cursor) :
    (afterRedirection c depth cursor position r).Brings p
      fun turn => Visit.Lawful p c x turn [] ⟨.redirected, position, b, wish⟩ := by
  cases h with
  | ended e => exact brings_pure (.of_ended hb rfl)
  | on v asked wish hw =>
    refine brings_bind (brings_blocksOf c) fun bs hbs => ?_
    subst hbs
    refine brings_mono (leave_goes c depth cursor position _ v asked.skip) fun turn hgo => ?_
    rw [hw] at hgo
    cases ht : target wish with
    | none =>
      rw [ht] at hgo
      exact .of_lost hb (fun j hj => absurd (ht.symm.trans hj) nofun) hgo
    | some j =>
      simp only [ht] at hgo
      split at hgo
      case isTrue hj => exact .of_taken hb ht hj hgo
      case isFalse hj =>
        refine .of_lost hb (fun j' hj' => ?_) hgo
        cases ht.symm.trans hj'
        exact ⟨by omega, rfl⟩

theorem redirect_lawful (n : Nat) (depth : Nat) (cursor : Cursor) (v : Value) :
    (redirectRecalled n c depth cursor position v).Brings p
      fun r => LawfulTurn p c x r.1 r.2 ∧ GoesTo position r.1 r.2 := by
  refine brings_bind (brings_blockAt c position) fun b' hb' => ?_
  cases hb.symm.trans hb'
  refine brings_bind (visitRecalled_tells _ _ _ _ _ _ _ _) fun r ⟨wish, hvisit, htold⟩ => ?_
  refine brings_bind (redirection_lawful (x := x) hb htold depth cursor) fun turn h => brings_pure ?_
  rw [hvisit]
  exact ⟨⟨h, trivial⟩, .inr ⟨_, _, rfl, rfl, rfl⟩⟩

theorem entry_lawful {r : Except (Option Error) (Value × Asked)} {wish : Option (Option Int)} (h : Told r wish)
    (n : Nat) (depth : Nat) {cursor : Cursor} (hc : cursor.position = position) (t : BlockType) :
    (afterEntry (redirectRecalled n c depth cursor) (·, []) c depth cursor t r).Brings p
      fun r => Visit.Lawful p c x r.1 r.2 ⟨.entered, position, b, wish⟩ ∧ LawfulTurn p c x r.1 r.2 := by
  subst hc
  cases h with
  | ended e => exact brings_pure ⟨.of_ended hb rfl, trivial⟩
  | on v asked wish hw =>
    simp only [afterEntry, hw]
    cases ht : target wish with
    | none =>
      refine brings_bind (leave_goes c depth cursor _ _ v asked.skip) fun turn hgo => brings_pure ⟨?_, trivial⟩
      exact .of_lost hb (fun j hj => absurd (ht.symm.trans hj) nofun) hgo
    | some j =>
      refine brings_bind (brings_blocksOf c) fun bs hbs => ?_
      subst hbs
      split
      case isTrue hlt =>
        refine spares_bind (spares_release v) fun _ => brings_bind (badJump_names hb) fun e he => brings_pure ?_
        exact ⟨.of_reported hb ht hlt nofun (by rw [he]), trivial⟩
      case isFalse hle =>
        split
        case isTrue hredirect =>
          have hj : j < (p.chain c).length := by simp at hredirect; exact hredirect.2
          refine brings_mono (redirect_lawful (x := x) (List.getElem?_eq_getElem hj) n depth cursor v) fun r hr => ?_
          exact ⟨.of_taken hb ht hj.le hr.2, hr.1⟩
        case isFalse =>
          refine brings_bind (leave_goes c depth cursor _ j v asked.skip) fun turn hgo => brings_pure ⟨?_, trivial⟩
          exact .of_taken hb ht (by omega) hgo

theorem enter_lawful (n : Nat) (depth : Nat) {cursor : Cursor} (hc : cursor.position = position) (t : BlockType)
    (prior : Option Value) :
    (enterRecalled n c depth cursor b t prior).Brings p
      fun r => LawfulTurn p c x r.1 r.2 ∧ ∃ s ss, r.2 = s :: ss ∧ s.entry = .entered ∧ s.position = position := by
  refine brings_bind (visitRecalled_tells _ _ _ _ _ _ _ _) fun r ⟨wish, hvisit, htold⟩ => ?_
  rw [hc] at hvisit
  refine brings_bind (entry_lawful (x := x) hb htold n depth (by exact hc) t) fun turn h => brings_pure ?_
  rw [hvisit]
  exact ⟨h, _, _, rfl, rfl, rfl⟩

end

/-- What closing a body comes to with its visits, in a turn from the cursor `x`. -/
inductive LawfulClosing (p : Program) (c : ChainId) (x : Cursor) : Closed × List Visit → Prop
  | ended (turn : Turn) (ss : List Visit) : LawfulTurn p c x turn ss → LawfulClosing p c x (.over turn, ss)
  | passed (y : Cursor) (prior : Option Value) : y.position = x.position → LawfulClosing p c x (.onward y prior, [])
  | closed (y : Cursor) (prior : Option Value) (s : Visit) : y.position = x.position → y.suppressed = none →
    (∀ turn t ts, t.entry = .entered → t.position = x.position → s.Lawful p c x turn (t :: ts)) →
    LawfulClosing p c x (.onward y prior, [s])

section

variable {p : Program} {c : ChainId} {x : Cursor}

theorem reentry_lawful {b : BlockId} {opener : Nat} (hb : (p.chain c)[opener]? = some b)
    {r : Except (Option Error) (Value × Asked)} {wish : Option (Option Int)} (h : Told r wish) {cursor : Cursor}
    (hc : cursor.position = x.position) (hs : cursor.suppressed = none) (t : BlockType) :
    (afterReentry c cursor t opener r).Brings p
      fun closed => LawfulClosing p c x (closed, [⟨.reentered, opener, b, wish⟩]) := by
  cases h with
  | ended e => exact brings_pure (.ended _ _ ⟨.of_ended hb rfl, trivial⟩)
  | on v asked wish hw =>
    simp only [afterReentry, hw]
    cases ht : target wish with
    | none =>
      have hlost : ∀ j, target wish = some j → (p.chain c).length < j ∧ Entry.reentered = .redirected :=
        fun j hj => absurd (ht.symm.trans hj) nofun
      dsimp only
      split
      · refine spares_bind (spares_release v) fun _ => brings_pure (.ended _ _ ⟨.of_lost hb hlost (.inl (.inl ?_)), trivial⟩)
        exact ⟨rfl, _, rfl, by rw [← hc]⟩
      · exact brings_pure (.closed _ _ _ hc hs fun turn t ts he hp => .of_lost hb hlost (.inr ⟨t, ts, rfl, he, hp⟩))
    | some j =>
      refine spares_bind (spares_release v) fun _ => brings_bind (brings_blocksOf c) fun bs hbs => ?_
      subst hbs
      split
      case isTrue hlt =>
        refine brings_bind (badJump_names hb) fun e he => brings_pure (.ended _ _ ⟨?_, trivial⟩)
        exact .of_reported hb ht hlt nofun (by rw [he])
      case isFalse hle =>
        exact brings_pure (.ended _ _ ⟨.of_taken hb ht (by omega) (.inl ⟨rfl, _, rfl, rfl⟩), trivial⟩)

theorem reenter_lawful (n : Nat) (depth : Nat) {cursor : Cursor} (hc : cursor.position = x.position)
    (hs : cursor.suppressed = none) (t : BlockType) (opener : Nat) (v : Value) :
    (reenterRecalled n c depth cursor t opener v).Brings p (LawfulClosing p c x) := by
  refine brings_bind (brings_blockAt c opener) fun b hb => ?_
  refine brings_bind (visitRecalled_tells _ _ _ _ _ _ _ _) fun r ⟨wish, hvisit, htold⟩ => ?_
  refine brings_bind (reentry_lawful hb htold hc hs t) fun closed h => brings_pure ?_
  rw [hvisit]
  exact h

theorem close_lawful (n : Nat) (depth : Nat) (t : BlockType) :
    (closeRecalled n c depth x t).Brings p (LawfulClosing p c x) := by
  have hposition : ∀ layer, (x.closedTo layer).position = x.position := fun layer => by
    unfold Cursor.closedTo
    split <;> rfl
  refine spares_bind (spares_read _) fun layer => ?_
  split
  · split
    · exact brings_pure (.ended _ _ trivial)
    · exact spares_bind (spares_read _) fun _ => brings_crash _
  · refine spares_bind (takeBody_spares depth layer) fun frame => ?_
    dsimp only
    split
    · refine spares_bind (spares_release _) fun _ => ?_
      split
      · exact brings_pure (.ended _ _ trivial)
      · exact brings_pure (.passed _ _ (hposition _))
    case isFalse hs => exact reenter_lawful n depth (hposition _) (by simpa using hs) t _ _

theorem takeUp_lawful {b : BlockId} (hb : (p.chain c)[x.position]? = some b) (n : Nat) (depth : Nat) (t : BlockType)
    {closed : Closed × List Visit} (h : LawfulClosing p c x closed) :
    (takeUpRecalled n c depth b t closed.1).Brings p fun r => LawfulTurn p c x r.1 (closed.2 ++ r.2) := by
  cases h with
  | ended turn ss h => exact brings_pure (by simpa using h)
  | passed y prior hy =>
    dsimp only [takeUpRecalled]
    split
    · exact brings_bind (passOver_turned depth y t) fun _ _ => brings_pure trivial
    · exact brings_mono (enter_lawful (x := x) hb n depth hy t prior) fun r h => h.1
  | closed y prior s hy hs hlaw =>
    dsimp only [takeUpRecalled]
    split
    case isTrue hs' => simp [hs] at hs'
    case isFalse =>
      refine brings_mono (enter_lawful (x := x) hb n depth hy t prior) fun r ⟨h, e, es, hr, he, hp⟩ => ?_
      rw [hr] at h ⊢
      exact ⟨hlaw r.1 e es he hp, h⟩

theorem turnRecalled_lawful (n : Nat) (depth : Nat) :
    (turnRecalled n c depth x).Brings p fun r => LawfulTurn p c x r.1 r.2 := by
  refine brings_bind (brings_blocksOf c) fun bs hbs => ?_
  subst hbs
  split
  · exact brings_pure trivial
  rename_i b hb
  refine spares_bind (spares_read _) fun cancelled => ?_
  split
  · exact brings_pure trivial
  refine spares_bind (spares_read _) fun d => brings_bind (Q := LawfulClosing p c x) ?_ fun closed h =>
    brings_bind (takeUp_lawful hb n depth d.type h) fun r hr => brings_pure hr
  split
  · exact close_lawful n depth _
  · exact brings_pure (.passed _ _ rfl)

end

/-! ## Whole runs -/

def walkRecalled : Nat → ChainId → Nat → Cursor → Work (Option Error × List (Turn × List Visit))
  | 0, _, _, _ => starve
  | n + 1, c, depth, cursor => do
    let r ← turnRecalled n c depth cursor
    match r.1 with
    | .next y =>
      let rest ← walkRecalled n c depth y
      return (rest.1, r :: rest.2)
    | .stop e => return (e, [r])

def invokeRecalled (n : Nat) (c : ChainId) (args : List Value) :
    Work (Except Error Value × List (Turn × List Visit)) := do
  let base ← read (·.exec.control.length)
  pushCall { args := args }
  let depth ← read (·.exec.calls.length)
  let r ← walkRecalled n c depth {}
  let v ← endCall depth base
  match r.1 with
  | some e =>
    release v
    return (.error e, r.2)
  | none => return (.ok v, r.2)

theorem walk_recalled (n : Nat) (c : ChainId) (depth : Nat) (cursor : Cursor) :
    Prod.fst <$> walkRecalled n c depth cursor = walk n c depth cursor := by
  induction n generalizing cursor with
  | zero => rfl
  | succ n ih =>
    rw [walk_succ, ← turn_recalled, bind_map_left, walkRecalled, map_bind]
    refine bind_congr fun ⟨turn, visits⟩ => ?_
    cases turn with
    | next y => simp [goOn, ← ih]
    | stop e => simp [goOn]

theorem invoke_recalled (n : Nat) (c : ChainId) (args : List Value) :
    Prod.fst <$> invokeRecalled n c args = invoke (n + 1) c args := by
  rw [invoke, invokeWith_eq, invokeRecalled, map_bind]
  refine bind_congr fun base => ?_
  rw [map_bind]
  refine bind_congr fun _ => ?_
  rw [map_bind]
  refine bind_congr fun depth => ?_
  rw [← walk_recalled, map_bind, bind_map_left]
  refine bind_congr fun r => ?_
  rw [map_bind]
  refine bind_congr fun v => ?_
  cases r.1 <;> simp

end Work

/-- The turns of a run through a chain from the cursor `x` on: each goes on where the one before left off, and the last
    ends the run with its error. -/
def LawfulRun (p : Program) (c : ChainId) (x : Cursor) (error : Option Error) : List (Turn × List Visit) → Prop
  | [] => False
  | (turn, visits) :: rest => LawfulTurn p c x turn visits ∧
    match turn with
    | .next y => LawfulRun p c y error rest
    | .stop e => e = error ∧ rest = []

namespace Work

theorem walkRecalled_lawful {p : Program} (n : Nat) (c : ChainId) (depth : Nat) (x : Cursor) :
    (walkRecalled n c depth x).Brings p fun r => LawfulRun p c x r.1 r.2 := by
  induction n generalizing x with
  | zero => exact brings_starve
  | succ n ih =>
    refine brings_bind (turnRecalled_lawful n depth) fun ⟨turn, visits⟩ h => ?_
    cases turn with
    | next y => exact brings_bind (ih y) fun rest hrest => brings_pure ⟨h, hrest⟩
    | stop e => exact brings_pure ⟨h, rfl, rfl⟩

def failure : Except Error Value → Option Error
  | .error e => some e
  | .ok _ => none

theorem invokeRecalled_lawful {p : Program} (n : Nat) (c : ChainId) (args : List Value) :
    (invokeRecalled n c args).Brings p fun r => LawfulRun p c {} (failure r.1) r.2 := by
  refine spares_bind (spares_read _) fun base => spares_bind (spares_pushCall _) fun _ =>
    spares_bind (spares_read _) fun depth => brings_bind (walkRecalled_lawful n c depth {}) fun ⟨error, turns⟩ h =>
      spares_bind (endCall_spares depth base) fun v => ?_
  cases error with
  | some e => exact spares_bind (spares_release v) fun _ => brings_pure h
  | none => exact brings_pure h

end Work

open Work

/-- In every run of every chain, with any natives, a native that neither fails nor ends the invocation can ask to
    continue at any position. The walk goes on there, if it is a position of the chain or its end. One past the end is
    the error of the run, which names the block, if the block was entered in its place or re-entered. A negative one, and
    one past the end from a branch that was entered in place of a continuation, are lost: the walk goes on below. -/
theorem jumps_taken_or_reported (n : Nat) (c : ChainId) (args : List Value) (m : Machine) :
    Prod.fst <$> invokeRecalled n c args = invoke (n + 1) c args ∧
      (invokeRecalled n c args).Meets (fun r _ => LawfulRun m.program c {} (failure r.1) r.2) (.all fun _ => True) m ∧
      ∀ k depth x, Prod.fst <$> turnRecalled k c depth x = advance (evaluate k) c depth x ∧
        (turnRecalled k c depth x).Meets (fun r _ => LawfulTurn m.program c x r.1 r.2) (.all fun _ => True) m :=
  ⟨invoke_recalled n c args, (invokeRecalled_lawful n c args m rfl).weaken fun _ _ h => h.2.2, fun k depth x =>
    ⟨turn_recalled k c depth x, (turnRecalled_lawful k depth m rfl).weaken fun _ _ h => h.2.2⟩⟩

/-! ## Jumps that are lost -/

/-- A block kind whose native asks to continue at a position, unless a body is closed. -/
def jumper (type : BlockType) (position : Int) : Definition where
  id := "jumper"
  type
  native := some fun
    | .scalar _ (.control .closing) :: _ => .done .nothing
    | _ => .ask (.jumpTo position) fun _ => .done .nothing

def chained (kinds : List Definition) : Machine where
  program :=
    { registries := #[{ kinds := kinds.toArray }]
      blocks := (kinds.zipIdx.map fun k => ⟨0, .zero, k.2, [], none, []⟩).toArray
      chains := #[List.range kinds.length] }
  exec := { limits := .standard }

/-- The visits of the turns of a run that comes to a result without an error. -/
def visitsOf : Outcome (Except Error Value × List (Turn × List Visit)) → Option (List (List Visit))
  | .done (.ok _, turns) _ => some (turns.map (·.2))
  | _ => none

/-- Two runs that end well although a native asked to continue out of the chain: before its first block, and far past
    its end, from the block that a continuation asked for. -/
theorem jumps_lost_unreported :
    visitsOf (invokeRecalled 9 0 [] (chained [jumper .normal (-5)])) =
        some [[⟨.entered, 0, 0, some (some (-5))⟩], []] ∧
      visitsOf (invokeRecalled 9 0 []
          (chained [jumper .control 1, jumper .continuation 3, jumper .terminator 4, jumper .normal 99])) =
        some [[⟨.entered, 0, 0, some (some 1)⟩],
          [⟨.reentered, 0, 0, some none⟩, ⟨.entered, 1, 1, some (some 3)⟩, ⟨.redirected, 3, 3, some (some 99)⟩], []] := by
  decide +kernel

end BlockEngine
