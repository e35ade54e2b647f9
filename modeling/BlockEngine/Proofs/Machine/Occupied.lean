/-
  BlockEngine.Proofs.Machine.Occupied — an interpreter at work stays in use.

  While a run waits, other runs and their callers change what they can reach. All that a run relies
  on to stay in use is that nobody else gives its interpreter back: `Occupies` asks no more of the
  machine that paused work is resumed on. Being in use is one of the constants of a run.

  Proved of every program and all natives: wherever a run is seen its interpreter is in use, and it
  never ends as one that is still running (`worker_occupies`).
-/

import BlockEngine.Proofs.Machine.Paced

namespace BlockEngine

/-- The interpreter is in use wherever the work is seen, as long as it is in use on every machine
    that the work is resumed on; and the result is as said. -/
def Outcome.Occupies {α : Type} (Q : α → Prop) : Outcome α → Prop
  | .done a m => Q a ∧ m.exec.running = true
  | .fault _ m => m.exec.running = true
  | .paused m resume => m.exec.running = true ∧ ∀ k, k.exec.running = true → (resume k).Occupies Q
  | .starved m => m.exec.running = true

theorem Outcome.Maintains.occupies {α : Type} {Q : α → Prop} {o : Outcome α}
    (h : o.Maintains (fun m => m.exec.running = true) Q) : o.Occupies Q := by
  induction o with
  | paused m resume ih => exact ⟨h.1, fun k hk => ih k (h.2 k hk)⟩
  | _ => exact h

namespace Work

theorem running_constant : Constant fun m => m.exec.running = true := fun _ _ hm _ _ hr => hr.trans hm

abbrev Busy {α : Type} (w : Work α) : Prop := w.Steady fun m => m.exec.running = true

/-- However an interpreter waits, it stays in use. -/
theorem paced_busy (wait : Machine → Bool) (n : Nat) (c : ChainId) (args : List Value) :
    (invokePaced wait n c args).Busy := (paced_steady running_constant wait n).2.1 c args

/-- Wherever a run is seen its interpreter is in use, and it does not end as one still running. -/
theorem worker_occupies {invoke : Invoker} (hi : ∀ c args, (invoke c args).Busy) (r : RegistryId) (cs : List ChainId)
    (cause : Option CancelCause) {m : Machine} (hm : m.exec.running = true) :
    (worker invoke r cs cause m).Occupies fun e => e.status ≠ .running := by
  refine Outcome.Maintains.occupies ?_
  rw [worker, bind_apply]
  exact runMains_maintains hi cs [] _ hm

end Work

end BlockEngine
