/-
  BlockEngine.Proofs.Machine.Errors — where the errors of an evaluation come from.

  Proved of evaluations, invocations and walks on any machine:
  - `evaluate_sourced`: where slots are of known types, an error that is reported is one that a native of
    the program fails with, or that there is no native, no procedure to call, a jump out of the chain, or
    the run's cancellation; it may name a block.
-/

import BlockEngine.Proofs.Machine.Invocation

namespace BlockEngine

def Proc.MayFail {α : Type} (e : Error) : Proc α → Prop
  | .done _ => False
  | .crash _ => False
  | .ask r go => r = .fail e ∨ ∃ reply, (go reply).MayFail e

/-- No slot is of an unknown type. -/
def Program.Supported (p : Program) : Prop :=
  ∀ (b : BlockId) (x : Block), p.blocks[b]? = some x → ∀ s ∈ x.slots, s.type ≠ .unknown

/-- Errors that an evaluation can report where no slot is of an unknown type. -/
inductive Sourced (p : Program) : Error → Prop
  | noNative : Sourced p .noNative
  | unlinked : Sourced p .unlinked
  | badJump : Sourced p .badJump
  | cancelled (cause : CancelCause) : Sourced p (.cancelled cause)
  /-- A native of some block fails with it. -/
  | failed {b : BlockId} {f : Native} {args : List Value} {e : Error} :
      (p.kindOf b).native = some f → (f args).MayFail e → Sourced p e
  | blamed {e : Error} (id : Text) (position : Int) : Sourced p e → Sourced p (e.blame id position)

/-- The error has a source, unless a slot is of an unknown type. -/
def Explained (p : Program) (e : Error) : Prop := p.Supported → Sourced p e

theorem Sourced.explained {p : Program} {e : Error} (h : Sourced p e) : Explained p e := fun _ => h

theorem Explained.blamed {p : Program} {e : Error} (id : Text) (position : Int) (h : Explained p e) :
    Explained p (e.blame id position) := fun hs => .blamed id position (h hs)

namespace Work

variable {α β : Type} {p : Program} {Q : α → Prop} {R : β → Prop}

/-- What comes of the work is of a sort. It leaves the program as it is, and the native at work where it was. -/
def Brings (p : Program) (Q : α → Prop) (w : Work α) : Prop := ∀ m, m.program = p →
  w.Meets (fun a k => k.program = p ∧ k.exec.eval = m.exec.eval ∧ Q a) (.all fun _ => True) m

abbrev Spares (p : Program) (w : Work α) : Prop := w.Brings p fun _ => True

theorem brings_bind {w : Work α} {f : α → Work β} (hw : w.Brings p Q) (hf : ∀ a, Q a → (f a).Brings p R) :
    (w >>= f).Brings p R := by
  intro m hm
  rw [meets_bind]
  refine (hw m hm).weaken fun a k ⟨hk, heval, ha⟩ => (hf a ha k hk).weaken fun b l ⟨hl, heval', hb⟩ => ?_
  exact ⟨hl, heval'.trans heval, hb⟩

theorem spares_bind {w : Work α} {f : α → Work β} (hw : w.Spares p) (hf : ∀ a, (f a).Brings p R) :
    (w >>= f).Brings p R := brings_bind hw fun a _ => hf a

theorem brings_mono {R : α → Prop} {w : Work α} (h : w.Brings p Q) (hR : ∀ a, Q a → R a) : w.Brings p R :=
  fun m hm => (h m hm).weaken fun a _ ⟨hk, heval, ha⟩ => ⟨hk, heval, hR a ha⟩

theorem brings_pure {a : α} (h : Q a) : (Pure.pure a : Work α).Brings p Q := fun _ hm => ⟨hm, rfl, h⟩

theorem spares_read (f : Machine → α) : (read f).Spares p := fun _ hm => ⟨hm, rfl, trivial⟩

theorem brings_kindOf (b : BlockId) : (kindOf b).Brings p fun d => d = p.kindOf b := fun _ hm => ⟨hm, rfl, hm ▸ rfl⟩

/-- What is found in a slot is in a slot of the program. -/
theorem brings_slotAt (b : BlockId) (i : Nat) :
    (slotAt b i).Brings p fun o => ∀ s, o = some s → ∃ x, p.blocks[b]? = some x ∧ s ∈ x.slots := by
  refine fun m hm => ⟨hm, rfl, fun s hs => ?_⟩
  obtain ⟨x, hx, hs⟩ := Option.bind_eq_some_iff.mp hs
  exact ⟨x, hm ▸ hx, List.mem_of_getElem? hs⟩

theorem brings_crash (f : Fault) : (crash f : Work α).Brings p Q := fun _ _ => trivial

theorem brings_starve : (starve : Work α).Brings p Q := fun _ _ => trivial

theorem spares_onStorage (f : Storage → α × Storage) : (onStorage f).Spares p := fun _ hm => ⟨hm, rfl, trivial⟩

theorem spares_modify {f : Machine → Machine} (h : ∀ m, (f m).program = m.program ∧ (f m).exec.eval = m.exec.eval) :
    (modify f).Spares p := fun m hm => ⟨(h m).1.trans hm, (h m).2, trivial⟩

theorem spares_release (v : Value) : (release v).Spares p := spares_modify fun _ => ⟨rfl, rfl⟩

theorem spares_pushOperand (v : Value) : (pushOperand v).Spares p := by
  intro m hm
  rw [meets_pushOperand]
  split
  · exact ⟨hm, rfl, trivial⟩
  · trivial

theorem spares_pushControl (f : ControlFrame) : (pushControl f).Spares p := by
  intro m hm
  rw [meets_pushControl]
  split
  · exact ⟨hm, rfl, trivial⟩
  · trivial

theorem spares_pushVariable (v : Variable) : (pushVariable v).Spares p := by
  intro m hm
  rw [meets_pushVariable]
  split
  · exact ⟨hm, rfl, trivial⟩
  · trivial

theorem spares_pushCall (f : CallFrame) : (pushCall f).Spares p := by
  intro m hm
  rw [meets_pushCall]
  split
  · exact ⟨hm, rfl, trivial⟩
  · trivial

theorem spares_popBody : popBody.Spares p := by
  intro m hm
  rw [meets_popBody]
  split
  · exact ⟨hm, rfl, trivial⟩
  · trivial
  · trivial

theorem spares_popData : popData.Spares p := by
  intro m hm
  unfold Meets popData
  split
  · exact ⟨hm, rfl, trivial⟩
  · trivial

theorem spares_popCall : popCall.Spares p := by
  intro m hm
  unfold Meets popCall
  split
  · exact ⟨hm, rfl, trivial⟩
  · trivial

theorem spares_mapFrame (depth : Nat) (f : CallFrame → CallFrame) : (mapExec (Exec.mapFrame depth f)).Spares p := by
  refine spares_modify fun m => ⟨rfl, ?_⟩
  dsimp only [Exec.mapFrame]
  split <;> rfl

/-! ## Requests that spare the native at work -/

/-- No part of the evaluation that the native belongs to is asked to change. -/
def sparing : Request → Bool
  | .skipBody | .jumpTo _ | .fail _ | .call .. => false
  | _ => true

theorem answer_spares (invoke : Invoker) {r : Request} (hr : sparing r = true) : (answer invoke r).Spares p := by
  cases r with
  | skipBody => cases hr
  | jumpTo i => cases hr
  | fail e => cases hr
  | call c args => cases hr
  | finish v =>
    refine spares_modify fun m => ?_
    split <;> exact ⟨rfl, rfl⟩
  | declare name v => exact spares_bind (spares_read _) fun _ => spares_pushVariable _
  | assign name v =>
    intro m hm
    show (assign name v).Meets _ _ m
    unfold Meets assign
    split
    · exact ⟨hm, rfl, trivial⟩
    · exact ⟨hm, rfl, trivial⟩
  | fetch name =>
    refine spares_bind (spares_read _) fun x => ?_
    cases x with
    | none => exact brings_pure trivial
    | some x => exact spares_bind (spares_onStorage _) fun _ => brings_pure trivial
  | pushData v => exact spares_pushControl _
  | popData => exact spares_popData
  | argument i =>
    refine spares_bind (spares_read _) fun calls => ?_
    cases calls with
    | nil => exact brings_pure trivial
    | cons f fs =>
      dsimp only
      split
      · exact spares_onStorage _
      · exact brings_pure trivial
  | print line =>
    intro m hm
    show (print line).Meets _ _ m
    unfold Meets print
    split
    · exact ⟨hm, rfl, trivial⟩
    · exact ⟨hm, rfl, trivial⟩
  | pause => exact fun m hm => ⟨trivial, fun k ⟨hp, he⟩ => ⟨hp.trans hm, by rw [he], trivial⟩⟩
  | cancelRun cause =>
    refine spares_modify fun m => ?_
    dsimp only
    split <;> exact ⟨rfl, rfl⟩
  | _ => exact fun m hm => ⟨hm, rfl, trivial⟩

/-! ## Natives -/

def Reported (p : Program) (r : Except Error α) : Prop := ∀ e, r = .error e → Explained p e

theorem reported_ok (a : α) : Reported p (.ok a) := by
  rintro _ ⟨⟩

theorem reported_error {e : Error} (h : Explained p e) : Reported p (.error e : Except Error α) := by
  rintro _ ⟨⟩
  exact h

/-- If the native at work has failed, the error is explained. -/
structure Failing (p : Program) (m : Machine) : Prop where
  program : m.program = p
  error : ∀ {s e}, m.exec.eval = some s → s.error = some e → Explained p e

theorem Failing.of_eq {m k : Machine} (h : Failing p m) (hp : k.program = m.program) (he : k.exec.eval = m.exec.eval) :
    Failing p k := ⟨hp.trans h.program, fun hs => h.error (he ▸ hs)⟩

/-- Work after which the native at work has failed with no other error. -/
def Blames (p : Program) (w : Work α) : Prop := ∀ m, Failing p m → w.Meets (fun _ => Failing p) (.all fun _ => True) m

theorem Brings.blames {w : Work α} (hw : w.Brings p Q) : w.Blames p := fun m h =>
  (hw m h.program).weaken fun _ _ ⟨hk, he, _⟩ => h.of_eq (hk.trans h.program.symm) he

theorem mapEval_blames {f : EvalState → EvalState} (hf : ∀ s, (f s).error = s.error) :
    (mapExec (Exec.mapEval f)).Blames p := by
  refine fun m h => ⟨h.program, fun hs he => ?_⟩
  obtain ⟨s', hs', rfl⟩ := Option.map_eq_some_iff.mp hs
  exact h.error hs' ((hf s').symm.trans he)

theorem fail_blames {e : Error} (he : Explained p e) : (fail e).Blames p := by
  refine fun m h => ⟨h.program, fun {s x} hs hx => ?_⟩
  obtain ⟨s', hs', rfl⟩ := Option.map_eq_some_iff.mp hs
  cases herror : s'.error with
  | none =>
    simp only [herror, Option.getD_none, Option.some.injEq] at hx
    exact hx ▸ he
  | some y =>
    simp only [herror, Option.getD_some, Option.some.injEq] at hx
    exact h.error hs' (hx ▸ herror)

section

variable {invoke : Invoker} (hi : ∀ c args, (invoke c args).Brings p (Reported p))
include hi

theorem call_blames (c : Option ChainId) (args : List Value) : (call invoke c args).Blames p := by
  intro m h
  unfold call
  cases c with
  | none =>
    dsimp only
    rw [meets_bind]
    exact fail_blames Sourced.unlinked.explained m h
  | some c =>
    dsimp only
    rw [meets_bind, meets_onStorage, meets_bind]
    refine (hi c _ { m with storage := (m.storage.copyAll args).2 } h.program).weaken fun r k ⟨hk, he, hr⟩ => ?_
    have hfree : Failing p { k with storage := k.storage.releaseAll (m.storage.copyAll args).1 } :=
      h.of_eq (hk.trans h.program.symm) he
    rw [meets_bind, meets_modify]
    cases r with
    | ok v => exact hfree
    | error e =>
      dsimp only
      rw [meets_bind]
      exact fail_blames (hr e rfl) _ hfree

/-- A native fails with what it asks to fail with, or with what a call of its own reports. -/
theorem answer_blames {r : Request} (hr : ∀ e, r = .fail e → Explained p e) : (answer invoke r).Blames p := by
  cases r with
  | skipBody =>
    intro m h
    show skipBody.Meets _ _ m
    unfold Meets skipBody
    split
    · trivial
    · rename_i s hs
      split
      · refine ⟨h.program, fun hs' he => ?_⟩
        cases hs'
        exact h.error hs he
      · trivial
  | jumpTo i =>
    refine mapEval_blames ?_
    exact fun _ => rfl
  | fail e => exact fail_blames (hr e rfl)
  | call c args => exact call_blames hi c args
  | _ => exact Brings.blames (answer_spares invoke rfl)

theorem perform_blames {q : Proc α} (hq : ∀ e, q.MayFail e → Explained p e) : (perform invoke q).Blames p := by
  induction q with
  | done a => exact fun m h => h
  | crash f => exact fun m h => trivial
  | ask r go ih =>
    intro m h
    show (answer invoke r >>= fun reply => perform invoke (go reply)).Meets _ _ m
    rw [meets_bind]
    refine (answer_blames hi (fun e he => hq e (.inl he)) m h).weaken fun reply k hk => ?_
    exact ih reply (fun e he => hq e (.inr ⟨reply, he⟩)) k hk

end

/-! ## Evaluation -/

theorem releasePrior_spares (prior : Option Value) : (releasePrior prior).Spares p := by
  cases prior with
  | none => exact brings_pure trivial
  | some v => exact spares_release v

theorem pushAll_spares (vs : List Value) : (pushAll vs).Spares p := by
  induction vs with
  | nil => exact brings_pure trivial
  | cons v vs ih => exact spares_bind (spares_pushOperand v) fun _ => ih

theorem pushHidden_sourced (d : Definition) (index : Int) (mark : Marker) (prior : Option Value) :
    (pushHidden d index mark prior).Brings p (Reported p) := by
  rw [pushHidden_eq]
  split
  · refine spares_bind (releasePrior_spares prior) fun _ => brings_pure (reported_error ?_)
    exact .blamed d.id index Sourced.unlinked.explained
  · exact spares_bind (pushAll_spares _) fun _ => brings_pure (reported_ok _)

def SourcedEval (p : Program) (eval : Evaluator) : Prop :=
  ∀ b index mark bare prior, (eval b index mark bare prior).Brings p (Reported p)

section

variable {eval : Evaluator} (he : SourcedEval p eval)
include he

theorem pushSlot_sourced (d : Definition) (index : Int) {s : Slot} (hs : p.Supported → s.type ≠ .unknown) :
    (pushSlot eval d index s).Brings p (Reported p) := by
  unfold pushSlot
  split
  · exact spares_bind (spares_pushOperand _) fun _ => brings_pure (reported_ok _)
  · exact spares_bind (spares_pushOperand _) fun _ => brings_pure (reported_ok _)
  · split
    · exact brings_crash _
    · refine brings_bind (he _ _ _ _ _) fun r hr => ?_
      rcases r with e | ⟨v, asked⟩
      · exact brings_pure (reported_error (hr e rfl))
      · exact spares_bind (spares_pushOperand v) fun _ => brings_pure (reported_ok _)
  · exact brings_pure (reported_ok _)
  · rename_i ht
    exact brings_pure (reported_error fun hp => (hs hp ht).elim)

theorem pushSlots_sourced (d : Definition) (b : BlockId) (index : Int) (is : List Nat) :
    (pushSlots eval d b index is).Brings p (Reported p) := by
  induction is with
  | nil => exact brings_pure (reported_ok _)
  | cons i is ih =>
    refine brings_bind (brings_slotAt b i) fun o ho => ?_
    cases o with
    | none => exact ih
    | some s =>
      obtain ⟨x, hx, hs⟩ := ho s rfl
      refine brings_bind (pushSlot_sourced he d index fun hp => hp b x hx s hs) fun r hr => ?_
      rcases r with e | -
      · exact brings_pure (reported_error (hr e rfl))
      · exact ih

theorem pushOperands_sourced (d : Definition) (b : BlockId) (index : Int) (mark : Marker) (bare : Bool)
    (prior : Option Value) : (pushOperands eval d b index mark bare prior).Brings p (Reported p) := by
  refine brings_bind (pushHidden_sourced d index mark prior) fun r hr => ?_
  rcases r with e | -
  · exact brings_pure (reported_error (hr e rfl))
  · show (pushDeclared eval d b index mark bare).Brings p _
    unfold pushDeclared
    split
    · exact brings_pure (reported_ok _)
    · exact spares_bind (spares_read _) fun n => pushSlots_sourced he d b index _

end

theorem callNative_sourced {invoke : Invoker} (hi : ∀ c args, (invoke c args).Brings p (Reported p)) {b : BlockId}
    {native : Native} (hn : (p.kindOf b).native = some native) {s : EvalState} (hs : s.error = none) (mark : Marker)
    (base : Nat) :
    (callNative invoke native s mark base).Brings p fun r => ∀ e, r.2.error = some e → Explained p e := by
  intro m hm
  unfold callNative
  simp only [window, meets_bind, meets_read, meets_modify]
  refine (perform_blames hi (fun e he => (Sourced.failed hn he).explained) _ ?_).weaken fun v k hk => ?_
  · refine ⟨hm, fun hs' he => ?_⟩
    cases hs'
    rw [hs] at he
    cases he
  · simp only [meets_mapExec]
    refine ⟨hk.program, rfl, fun e he => ?_⟩
    cases hin : k.exec.eval with
    | none =>
      rw [hin, Option.getD_none, hs] at he
      cases he
    | some s' =>
      rw [hin, Option.getD_some] at he
      exact hk.error hin he

theorem evaluateWith_sourced {eval : Evaluator} {invoke : Invoker} (he : SourcedEval p eval)
    (hi : ∀ c args, (invoke c args).Brings p (Reported p)) : SourcedEval p (evaluateWith eval invoke) := by
  intro b index mark bare prior
  refine brings_bind (brings_kindOf b) fun d hd => ?_
  split
  · refine spares_bind (releasePrior_spares prior) fun _ => brings_pure (reported_error ?_)
    exact .blamed d.id index Sourced.noNative.explained
  next native hn =>
    refine spares_bind (spares_read _) fun base =>
      brings_bind (pushOperands_sourced he d b index mark bare prior) fun r hr => ?_
    rcases r with e | -
    · exact spares_bind (spares_modify fun _ => ⟨rfl, rfl⟩) fun _ => brings_pure (reported_error (hr e rfl))
    · refine brings_bind (callNative_sourced hi (hd ▸ hn) rfl mark base) fun ⟨v, s⟩ hs => ?_
      dsimp only
      split
      next e herror =>
        exact spares_bind (spares_release v) fun _ => brings_pure (reported_error (.blamed d.id index (hs e herror)))
      next => exact brings_pure (reported_ok _)

/-! ## The walk -/

def Stopped (p : Program) (error : Option Error) : Prop := ∀ e, error = some e → Explained p e

def Turned (p : Program) (turn : Turn) : Prop := ∀ error, turn = .stop error → Stopped p error

theorem turned_next (cursor : Cursor) : Turned p (.next cursor) := by
  rintro _ ⟨⟩

theorem turned_none : Turned p (.stop none) := by
  rintro _ ⟨⟩ _ ⟨⟩

theorem turned_some {e : Error} (h : Explained p e) : Turned p (.stop (some e)) := by
  rintro _ ⟨⟩ _ ⟨⟩
  exact h

def Closing (p : Program) (closed : Closed) : Prop := ∀ turn, closed = .over turn → Turned p turn

theorem closing_over {turn : Turn} (h : Turned p turn) : Closing p (.over turn) := by
  rintro _ ⟨⟩
  exact h

theorem closing_onward (cursor : Cursor) (prior : Option Value) : Closing p (.onward cursor prior) := by
  rintro _ ⟨⟩

theorem blockAt_spares (c : ChainId) (i : Nat) : (blockAt c i).Spares p := by
  refine spares_bind (spares_read _) fun bs => ?_
  split
  · exact brings_pure trivial
  · exact brings_crash _

theorem badJump_sourced (c : ChainId) (i : Nat) : (badJump c i).Brings p (Explained p) :=
  spares_bind (blockAt_spares c i) fun _ => spares_bind (spares_read _) fun d => 
    brings_pure (.blamed d.id i Sourced.badJump.explained)

theorem openBody_spares (depth i : Nat) (v : Value) : (openBody depth i v).Spares p :=
  spares_bind (spares_pushControl _) fun _ => spares_bind (spares_read _) fun _ =>
    spares_bind (spares_mapFrame _ _) fun _ => brings_pure trivial

theorem leave_turned (c : ChainId) (depth : Nat) (cursor : Cursor) (i target : Nat) (v : Value) (skip : Bool) :
    (leave c depth cursor i target v skip).Brings p (Turned p) := by
  refine spares_bind (blockAt_spares c i) fun b => spares_bind (spares_read _) fun d => ?_
  split
  · exact spares_bind (openBody_spares depth i v) fun _ => brings_pure (turned_next _)
  · exact spares_bind (spares_release v) fun _ => brings_pure (turned_next _)

theorem passOver_turned (depth : Nat) (cursor : Cursor) (t : BlockType) :
    (passOver depth cursor t).Brings p (Turned p) := by
  unfold passOver
  split
  · exact spares_bind (openBody_spares _ _ _) fun _ => brings_pure (turned_next _)
  · exact brings_pure (turned_next _)

theorem takeBody_spares (depth layer : Nat) : (takeBody depth layer).Spares p :=
  spares_bind spares_popBody fun _ => spares_bind (spares_modify fun _ => ⟨rfl, rfl⟩) fun _ =>
    spares_bind (spares_mapFrame _ _) fun _ => brings_pure trivial

section

variable {eval : Evaluator} (he : SourcedEval p eval) (c : ChainId) (depth : Nat) (cursor : Cursor)
include he

theorem reenter_closing (t : BlockType) (opener : Nat) (v : Value) :
    (reenter eval c depth cursor t opener v).Brings p (Closing p) := by
  refine spares_bind (blockAt_spares c opener) fun b => brings_bind (he _ _ _ _ _) fun r hr => ?_
  rcases r with e | ⟨w, asked⟩
  · exact brings_pure (closing_over (turned_some (hr e rfl)))
  refine spares_bind (spares_read _) fun finished => ?_
  split
  · exact spares_bind (spares_release w) fun _ => brings_pure (closing_over turned_none)
  split
  · refine spares_bind (spares_release w) fun _ => spares_bind (spares_read _) fun bs => ?_
    split
    · exact brings_bind (badJump_sourced c opener) fun e h => brings_pure (closing_over (turned_some h))
    · exact brings_pure (closing_over (turned_next _))
  · split
    · exact spares_bind (spares_release w) fun _ => brings_pure (closing_over (turned_next _))
    · exact brings_pure (closing_onward _ _)

theorem closeBody_closing (t : BlockType) : (closeBody eval c depth cursor t).Brings p (Closing p) := by
  rw [closeBody_eq]
  refine spares_bind (spares_read _) fun layer => ?_
  split
  · split
    · exact brings_pure (closing_over (turned_next _))
    · exact spares_bind (spares_read _) fun _ => brings_crash _
  · refine spares_bind (takeBody_spares depth layer) fun frame => ?_
    show (closeWith eval c depth t _ frame.1 frame.2).Brings p _
    unfold closeWith
    split
    · refine spares_bind (spares_release _) fun _ => ?_
      split
      · exact brings_pure (closing_over (turned_next _))
      · exact brings_pure (closing_onward _ _)
    · exact reenter_closing he c depth _ t _ _

theorem redirect_turned (target : Nat) (v : Value) : (redirect eval c depth cursor target v).Brings p (Turned p) := by
  refine spares_bind (blockAt_spares c target) fun b => brings_bind (he _ _ _ _ _) fun r hr => ?_
  rcases r with e | ⟨w, asked⟩
  · exact brings_pure (turned_some (hr e rfl))
  refine spares_bind (spares_read _) fun finished => ?_
  split
  · exact spares_bind (spares_release w) fun _ => brings_pure turned_none
  · exact spares_bind (spares_read _) fun bs => leave_turned _ _ _ _ _ _ _

theorem enter_turned (b : BlockId) (t : BlockType) (prior : Option Value) :
    (enter eval c depth cursor b t prior).Brings p (Turned p) := by
  refine brings_bind (he _ _ _ _ _) fun r hr => ?_
  rcases r with e | ⟨w, asked⟩
  · exact brings_pure (turned_some (hr e rfl))
  refine spares_bind (spares_read _) fun finished => ?_
  split
  · exact spares_bind (spares_release w) fun _ => brings_pure turned_none
  split
  · exact leave_turned _ _ _ _ _ _ _
  · refine spares_bind (spares_read _) fun bs => ?_
    dsimp only
    split
    · exact spares_bind (spares_release w) fun _ =>
        brings_bind (badJump_sourced c _) fun e h => brings_pure (turned_some h)
    · split
      · exact redirect_turned he c depth _ _ w
      · exact leave_turned _ _ _ _ _ _ _

theorem advance_turned : (advance eval c depth cursor).Brings p (Turned p) := by
  rw [advance_eq]
  refine spares_bind (spares_read _) fun bs => ?_
  split
  · exact brings_pure turned_none
  refine spares_bind (spares_read _) fun cancelled => ?_
  split
  · exact brings_pure (turned_some (Sourced.cancelled _).explained)
  refine spares_bind (spares_read _) fun d => brings_bind (Q := Closing p) ?_ fun closed h => ?_
  · split
    · exact closeBody_closing he c depth cursor _
    · exact brings_pure (closing_onward _ _)
  · rcases closed with turn | ⟨cursor, prior⟩
    · exact brings_pure (h turn rfl)
    · simp only [takeUp]
      split
      · exact passOver_turned depth cursor _
      · exact enter_turned he c depth cursor _ _ _

end

theorem endCall_spares (depth base : Nat) : (endCall depth base).Spares p := by
  have htake : (takeResult depth).Spares p :=
    spares_bind (spares_read _) fun _ => spares_bind (spares_mapFrame _ _) fun _ => brings_pure trivial
  exact spares_bind (spares_modify fun _ => ⟨rfl, rfl⟩) fun _ => spares_bind (spares_modify fun _ => ⟨rfl, rfl⟩) fun _ =>
    spares_bind htake fun _ => spares_bind spares_popCall fun _ => brings_pure trivial

theorem invokeWith_sourced {walk : ChainId → Nat → Work (Option Error)}
    (hw : ∀ c depth, (walk c depth).Brings p (Stopped p)) (c : ChainId) (args : List Value) :
    (invokeWith walk c args).Brings p (Reported p) := by
  rw [invokeWith_eq]
  refine spares_bind (spares_read _) fun base => spares_bind (spares_pushCall _) fun _ =>
    spares_bind (spares_read _) fun depth => brings_bind (hw c depth) fun error h =>
      spares_bind (endCall_spares depth base) fun v => ?_
  split
  · exact spares_bind (spares_release v) fun _ => brings_pure (reported_error (h _ rfl))
  · exact brings_pure (reported_ok _)

/-- Errors of evaluations, invocations and walks are explained. -/
theorem errors_sourced (p : Program) (n : Nat) :
    SourcedEval p (evaluate n) ∧ (∀ c args, (invoke n c args).Brings p (Reported p)) ∧
      ∀ c depth cursor, (walk n c depth cursor).Brings p (Stopped p) := by
  induction n with
  | zero => exact ⟨fun _ _ _ _ _ => brings_starve, fun _ _ => brings_starve, fun _ _ _ => brings_starve⟩
  | succ n ih =>
    obtain ⟨he, hi, hw⟩ := ih
    refine ⟨?_, fun c args => ?_, fun c depth cursor => ?_⟩
    · rw [evaluate]
      exact evaluateWith_sourced he hi
    · rw [invoke]
      exact invokeWith_sourced (fun c depth => hw c depth {}) c args
    · rw [walk]
      refine brings_bind (advance_turned he c depth cursor) fun turn h => ?_
      cases turn with
      | next cursor => exact hw c depth cursor
      | stop error => exact brings_pure (h error rfl)

/-- An error that an evaluation reports has a source. -/
theorem evaluate_sourced (n : Nat) (b : BlockId) (index : Int) (mark : Marker) (bare : Bool) (prior : Option Value)
    {m : Machine} (hs : m.program.Supported) : (evaluate n b index mark bare prior).Meets
      (fun r _ => ∀ e, r = .error e → Sourced m.program e) (.all fun _ => True) m :=
  ((errors_sourced m.program n).1 b index mark bare prior m rfl).weaken fun _ _ h e he => h.2.2 e he hs

end Work

end BlockEngine
