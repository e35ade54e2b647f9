/-
  BlockEngine.Proofs.Machine.History — all that work shows until it ends.

  `Outcome.Path` has the machines that work shows up to some point, and `Outcome.Ran` those that it shows
  until it ends with a result. What holds of the result may depend on all of them: `Outcome.Tells` carries
  the machines shown so far from one piece of work to the next, whatever its host does in between.

  The interpreter has shown some machines wherever it ends: work of which it leaves out pauses ends as it
  does (`Outcome.Elides.ran`).
-/

import BlockEngine.Proofs.Machine.Scopes

namespace BlockEngine

/-- What a host leaves alone while a run is paused that is recorded. -/
def Machine.MayProceed (m k : Machine) : Prop := m.MayResume k ∧ k.journal = m.journal

theorem Machine.MayProceed.refl (m : Machine) : m.MayProceed m := ⟨.refl m, rfl⟩

namespace Outcome

variable {α β : Type}

/-- Work ends with a result, and these are the machines that it showed, one after the other. -/
inductive Ran : Outcome α → List Machine → α → Machine → Prop
  | done (a : α) (m : Machine) : Ran (.done a m) [] a m
  | resumed {m k l : Machine} {resume : Machine → Outcome α} {ms : List Machine} {a : α} :
      m.MayProceed k → Ran (resume k) ms a l → Ran (.paused m resume) (m :: ms) a l

/-- `P` holds of every machine that is shown, and `Q` of the result, of all machines shown until then, from
    some on, and of the machine that is left. While work is paused, no more happens than the host may do. -/
def Tells (host : Machine → Machine → Prop) (P : Machine → Prop) (Q : α → List Machine → Machine → Prop) :
    Outcome α → List Machine → Prop
  | .done a m, ms => Q a ms m
  | .fault _ m, _ => P m
  | .starved m, _ => P m
  | .paused m resume, ms => P m ∧ ∀ k, host m k → (resume k).Tells host P Q (ms ++ [m])

variable {host : Machine → Machine → Prop} {P : Machine → Prop} {Q Q' : α → List Machine → Machine → Prop}
  {o : Outcome α} {ms : List Machine}

theorem Tells.mono (h : o.Tells host P Q ms) (hQ : ∀ a ms m, Q a ms m → Q' a ms m) : o.Tells host P Q' ms := by
  induction o generalizing ms with
  | done a m => exact hQ a ms m h
  | fault f m => exact h
  | starved m => exact h
  | paused m resume ih => exact ⟨h.1, fun k hk => ih k (h.2 k hk)⟩

theorem Tells.bind {R : β → List Machine → Machine → Prop} {f : α → Machine → Outcome β}
    (h : o.Tells host P Q ms) (hf : ∀ a ms m, Q a ms m → (f a m).Tells host P R ms) :
    (o.bind f).Tells host P R ms := by
  induction o generalizing ms with
  | done a m => exact hf a ms m h
  | fault g m => exact h
  | starved m => exact h
  | paused m resume ih => exact ⟨h.1, fun k hk => ih k (h.2 k hk)⟩

/-- What was told of the result holds of one that work ended with. -/
theorem Tells.ran {ms' : List Machine} {a : α} {m : Machine} (h : o.Tells Machine.MayProceed P Q ms)
    (hr : o.Ran ms' a m) : Q a (ms ++ ms') m := by
  induction hr generalizing ms with
  | done a m =>
    rw [List.append_nil]
    exact h
  | resumed hk _ ih =>
    have hQ := ih (h.2 _ hk)
    rwa [List.append_assoc] at hQ

/-- What was told of machines that are shown holds all along. -/
theorem Tells.path {ms' : List Machine} (h : o.Tells Machine.MayResume P (fun _ _ => P) ms) (hp : o.Path ms') :
    ∀ s ∈ ms', P s := by
  induction hp generalizing ms with
  | done a m => exact List.forall_mem_singleton.mpr h
  | fault f m => exact List.forall_mem_singleton.mpr h
  | starved m => exact List.forall_mem_singleton.mpr h
  | paused m resume => exact List.forall_mem_singleton.mpr h.1
  | resumed hk _ ih => exact List.forall_mem_cons.mpr ⟨h.1, ih (h.2 _ hk)⟩

/-- Work that ends without some of its pauses has ended, with them, after showing some machines. -/
theorem Elides.ran {a : α} {m : Machine} (h : o.Elides (.done a m)) : ∃ ms, o.Ran ms a m := by
  generalize he : Outcome.done a m = o' at h
  induction h with
  | done b k =>
    cases he
    exact ⟨[], .done a m⟩
  | fault f k => cases he
  | starved k => cases he
  | paused _ _ => cases he
  | unseen _ ih =>
    obtain ⟨ms, hms⟩ := ih he
    exact ⟨_, .resumed (.refl _) hms⟩

end Outcome

end BlockEngine
