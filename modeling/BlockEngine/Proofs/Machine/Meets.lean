/-
  BlockEngine.Proofs.Machine.Meets — what can be said of work on a machine.

  `Meets` states what holds of a result and of the machine it leaves, and what holds where work
  breaks down, starves or is paused (`Exits`). A paused computation must go on well on every
  machine that it may be resumed on: while a run waits, its host may change storage and the world
  outside, and cancel the run, but neither the program nor the stacks.

  One equivalence for each way to put work together and for each effect on the machine; all later
  reasoning about the engine goes through them.
-/

import BlockEngine.Machine.Evaluate

namespace BlockEngine

/-- What a host leaves alone while a run is paused. -/
def Machine.MayResume (m k : Machine) : Prop :=
  k.program = m.program ∧ k.exec = { m.exec with cancelled := k.exec.cancelled }

theorem Machine.MayResume.refl (m : Machine) : m.MayResume m := ⟨rfl, rfl⟩

/-- What holds where work comes to no result. -/
structure Exits where
  fault : Fault → Machine → Prop
  starved : Machine → Prop
  paused : Machine → Prop

def Exits.all (P : Machine → Prop) : Exits := ⟨fun _ => P, P, P⟩

namespace Outcome

variable {α β : Type} {Q Q' : α → Machine → Prop} {E E' : Exits}

def Meets (Q : α → Machine → Prop) (E : Exits) : Outcome α → Prop
  | .done a m => Q a m
  | .fault f m => E.fault f m
  | .paused m resume => E.paused m ∧ ∀ k, m.MayResume k → (resume k).Meets Q E
  | .starved m => E.starved m

/-- The machine is one that the work ends with, breaks down with, or is seen with at a pause. -/
inductive Shows : Outcome α → Machine → Prop
  | done (a : α) (m : Machine) : Shows (.done a m) m
  | fault (f : Fault) (m : Machine) : Shows (.fault f m) m
  | starved (m : Machine) : Shows (.starved m) m
  | paused (m : Machine) (resume : Machine → Outcome α) : Shows (.paused m resume) m
  | resumed {m k s : Machine} {resume : Machine → Outcome α} :
      m.MayResume k → Shows (resume k) s → Shows (.paused m resume) s

theorem Meets.mono {o : Outcome α} (h : o.Meets Q E) (hQ : ∀ a m, Q a m → Q' a m)
    (hf : ∀ f m, E.fault f m → E'.fault f m) (hs : ∀ m, E.starved m → E'.starved m)
    (hp : ∀ m, E.paused m → E'.paused m) : o.Meets Q' E' := by
  induction o with
  | done a m => exact hQ a m h
  | fault f m => exact hf f m h
  | starved m => exact hs m h
  | paused m resume ih => exact ⟨hp m h.1, fun k hk => ih k (h.2 k hk)⟩

theorem Meets.weaken {o : Outcome α} (h : o.Meets Q E) (hQ : ∀ a m, Q a m → Q' a m) :
    o.Meets Q' E :=
  h.mono hQ (fun _ _ => id) (fun _ => id) (fun _ => id)

theorem Meets.both {o : Outcome α} (h : o.Meets Q E) (h' : o.Meets Q' E') :
    o.Meets (fun a m => Q a m ∧ Q' a m)
      ⟨fun f m => E.fault f m ∧ E'.fault f m, fun m => E.starved m ∧ E'.starved m,
        fun m => E.paused m ∧ E'.paused m⟩ := by
  induction o with
  | done a m => exact ⟨h, h'⟩
  | fault f m => exact ⟨h, h'⟩
  | starved m => exact ⟨h, h'⟩
  | paused m resume ih => exact ⟨⟨h.1, h'.1⟩, fun k hk => ih k (h.2 k hk) (h'.2 k hk)⟩

theorem bind_done (o : Outcome α) : o.bind .done = o := by
  induction o with
  | paused m resume ih => simp only [bind, ih]
  | _ => rfl

theorem bind_assoc {γ : Type} (o : Outcome α) (f : α → Machine → Outcome β)
    (g : β → Machine → Outcome γ) : (o.bind f).bind g = o.bind fun a m => (f a m).bind g := by
  induction o with
  | paused m resume ih => simp only [bind, ih]
  | _ => rfl

theorem meets_bind {Q : β → Machine → Prop} (o : Outcome α) (f : α → Machine → Outcome β) :
    (o.bind f).Meets Q E ↔ o.Meets (fun a m => (f a m).Meets Q E) E := by
  induction o with
  | done a m => exact Iff.rfl
  | fault g m => exact Iff.rfl
  | starved m => exact Iff.rfl
  | paused m resume ih => exact and_congr_right fun _ => forall_congr' fun k => imp_congr_right fun _ => ih k

/-- What holds at every exit and of every result holds of every machine that work shows. -/
theorem Meets.of_shows {P : Machine → Prop} {o : Outcome α} {m : Machine}
    (h : o.Meets (fun _ => P) (.all P)) (hm : o.Shows m) : P m := by
  induction hm with
  | done a m => exact h
  | fault f m => exact h
  | starved m => exact h
  | paused m resume => exact h.1
  | resumed hk _ ih => exact ih (h.2 _ hk)

end Outcome

theorem Work.bind_assoc {α β γ : Type} (w : Work α) (f : α → Work β) (g : β → Work γ) :
    w >>= f >>= g = w >>= fun a => f a >>= g := by
  funext m
  calc (w >>= f >>= g) m = ((w m).bind f).bind g :=
        (bind_apply _ g m).trans (congrArg (·.bind g) (bind_apply w f m))
    _ = (w m).bind fun a k => (f a k).bind g := Outcome.bind_assoc (w m) f g
    _ = (w m).bind fun a k => (f a >>= g) k :=
        congrArg (Outcome.bind (w m)) (funext fun a => funext fun k => (bind_apply (f a) g k).symm)
    _ = (w >>= fun a => f a >>= g) m := (bind_apply w _ m).symm

instance : LawfulMonad Work :=
  .mk' Work (fun w => funext fun m => (Work.bind_apply w _ m).trans (Outcome.bind_done _))
    (fun _ _ => rfl) Work.bind_assoc

namespace Work

variable {α β : Type} {E : Exits} {m : Machine}

def Meets (w : Work α) (Q : α → Machine → Prop) (E : Exits) (m : Machine) : Prop :=
  Outcome.Meets Q E (w m)

theorem Meets.weaken {Q Q' : α → Machine → Prop} {w : Work α} (h : w.Meets Q E m)
    (hQ : ∀ a k, Q a k → Q' a k) : w.Meets Q' E m := Outcome.Meets.weaken h hQ

/-! ## Putting work together -/

section

variable {Q : β → Machine → Prop}

@[simp] theorem meets_bind (w : Work α) (f : α → Work β) :
    (w >>= f).Meets Q E m ↔ w.Meets (fun a k => (f a).Meets Q E k) E m := by
  unfold Meets
  rw [bind_apply]
  exact Outcome.meets_bind _ _

@[simp] theorem meets_bind' (w : Work α) (f : α → Work β) :
    (bind w f).Meets Q E m ↔ w.Meets (fun a k => (f a).Meets Q E k) E m := meets_bind w f

end

section

variable {Q : α → Machine → Prop}

@[simp] theorem meets_pure (a : α) : (Pure.pure a : Work α).Meets Q E m ↔ Q a m := Iff.rfl
@[simp] theorem meets_read (f : Machine → α) : (read f).Meets Q E m ↔ Q (f m) m := Iff.rfl
@[simp] theorem meets_onStorage (f : Storage → α × Storage) :
    (onStorage f).Meets Q E m ↔ Q (f m.storage).1 { m with storage := (f m.storage).2 } := Iff.rfl

end

/-! ## Effects -/

section

variable {Q : Unit → Machine → Prop}

@[simp] theorem meets_modify (f : Machine → Machine) : (modify f).Meets Q E m ↔ Q () (f m) := Iff.rfl
@[simp] theorem meets_mapExec (f : Exec → Exec) :
    (mapExec f).Meets Q E m ↔ Q () { m with exec := f m.exec } := Iff.rfl
@[simp] theorem meets_release (v : Value) :
    (release v).Meets Q E m ↔ Q () { m with storage := m.storage.release v } := Iff.rfl

@[simp] theorem meets_pushOperand (v : Value) : (pushOperand v).Meets Q E m ↔
    if m.exec.operands.length < m.exec.limits.operands then
      Q () { m with exec.operands := v :: m.exec.operands }
    else E.fault (stackFault .operand .push m.exec.limits.operands) m := by
  unfold Meets pushOperand
  split <;> exact Iff.rfl

@[simp] theorem meets_pushControl (f : ControlFrame) : (pushControl f).Meets Q E m ↔
    if m.exec.control.length < m.exec.limits.control then
      Q () { m with exec.control := f :: m.exec.control }
    else E.fault (stackFault .control .push m.exec.limits.control) m := by
  unfold Meets pushControl
  split <;> exact Iff.rfl

@[simp] theorem meets_pushVariable (v : Variable) : (pushVariable v).Meets Q E m ↔
    if m.exec.bindings.length < m.exec.limits.bindings then
      Q () { m with exec.bindings := v :: m.exec.bindings }
    else E.fault (stackFault .variable .push m.exec.limits.bindings) m := by
  unfold Meets pushVariable
  split <;> exact Iff.rfl

@[simp] theorem meets_pushCall (f : CallFrame) : (pushCall f).Meets Q E m ↔
    if m.exec.calls.length < m.exec.limits.calls then
      Q () { m with exec.calls := f :: m.exec.calls }
    else E.fault (stackFault .call .push m.exec.limits.calls) m := by
  unfold Meets pushCall
  split <;> exact Iff.rfl

end

end Work

end BlockEngine
