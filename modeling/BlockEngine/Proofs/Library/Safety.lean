/-
  BlockEngine.Proofs.Library.Safety — tidy programs of standard blocks never corrupt the control stack.

  Proved: a run of a program whose chains nest, and in which no block that opens a body stands in an
  argument, is never fatal but where a stack was full (`worker_fatal_on_overflow`), whether and wherever
  it is cancelled: closing a body finds its frame, a repetition finds what it kept, skipping a body is
  always allowed, markers are markers, and natives find all their operands.
-/

import BlockEngine.Proofs.Library.Interruption

namespace BlockEngine

open Work

def Ending.FatalOnOverflow (e : Ending) : Prop :=
  e.status = .fatal → ∃ stack capacity, e.error = some (.stack ⟨stack, .push, capacity⟩)

/-- Entry chains of a region are run one after the other, if no invocation breaks down but where a
    stack is full. -/
theorem runMains_fatal_on_overflow {p : Program} {R : Region p} {waits : Prop} {invoke : Invoker}
    (hw : InvokesWell R False False waits invoke) (hr : Restoring invoke) (cs : List ChainId)
    (hc : ∀ c ∈ cs, p.isMain c = true → R.chains c) (results : List Value) {m : Machine} (hs : m.Scoped)
    (hp : m.program = p) :
    (runMains invoke cs results).Meets (fun e _ => e.FatalOnOverflow)
      ⟨fun _ _ => False, fun _ => True, fun _ => waits⟩ m := by
  induction cs generalizing results m with
  | nil => exact fun h => (by cases h)
  | cons c cs ih =>
    rw [List.forall_mem_cons] at hc
    simp only [runMains, meets_bind, meets_read, hp]
    split
    · exact ih hc.2 results hs hp
    · rename_i hmain
      have hinvoke : (invoke c []).Meets _ _ m :=
        hw (hc.1 (by simpa using hmain)) hs hp False.elim fun _ h => (by cases h)
      rw [meets_bind]
      refine meets_attempt _ ((Outcome.Meets.both hinvoke (hr c [] m hs)).mono (fun r k hk => ?_)
        (fun f k hf => ?_) (fun _ _ => trivial) fun _ hf => hf.1)
      · cases r with
        | error e =>
          intro h
          dsimp only at h
          split at h <;> cases h
        | ok v => exact ih hc.2 _ (hk.2.toScoped hs) (hk.2.program.trans hp)
      · obtain ⟨stack, capacity, rfl⟩ := hf.1.resolve_right id
        exact fun _ => ⟨stack, capacity, rfl⟩

/-- As `runMains_fatal_on_overflow`, of a whole run. -/
theorem worker_orderly {m : Machine} {r : RegistryId} {cs : List ChainId} {R : Region (m.program.link r cs)}
    {waits : Prop} {invoke : Invoker} (hw : InvokesWell R False False waits invoke) (hr : Restoring invoke)
    (hc : ∀ c ∈ cs, (m.program.link r cs).isMain c = true → R.chains c) (cause : Option CancelCause) :
    (worker invoke r cs cause).Meets (fun e _ => e.FatalOnOverflow)
      ⟨fun _ _ => False, fun _ => True, fun _ => waits⟩ m := by
  simp only [worker, drain, meets_bind, meets_modify]
  exact runMains_fatal_on_overflow hw hr cs hc [] rfl rfl

/-- A run of a tidy program of standard blocks, calls and placeholders is never fatal but where a
    stack was full, whatever the capacities are and however long it takes. Nor is the same run if its
    host may cancel it at any checkpoint. -/
theorem worker_fatal_on_overflow (n : Nat) (r : RegistryId) (cs : List ChainId) (cause : Option CancelCause)
    (m : Machine) (R : Region (m.program.link r cs)) (ht : R.Tidy)
    (hc : ∀ c ∈ cs, (m.program.link r cs).isMain c = true → R.chains c) :
    ((∃ k, worker (invoke n) r cs cause m = .starved k) ∨
        ∃ e k, worker (invoke n) r cs cause m = .done e k ∧ e.FatalOnOverflow) ∧
      (worker (invokeWatched ⟨true, none⟩ n) r cs cause).Elides (worker (invoke n) r cs cause) ∧
      (worker (invokeWatched ⟨true, none⟩ n) r cs cause).Meets (fun e _ => e.FatalOnOverflow)
        ⟨fun _ _ => False, fun _ => True, fun _ => True⟩ m := by
  refine ⟨?_, worker_waits n r cs cause, ?_⟩
  · have h := worker_orderly (keeps_control False False (.inr ht) n).2.1 (keeps_scopes n).2.1 hc cause
    unfold Meets at h
    cases ho : worker (invoke n) r cs cause m with
    | done e k => exact .inr ⟨e, k, rfl, by rwa [ho] at h⟩
    | starved k => exact .inl ⟨k, rfl⟩
    | fault f k => rw [ho] at h; exact h.elim
    | paused k resume => rw [ho] at h; exact h.1.elim
  · have hcontrol : InvokesWell R False False True (invokeWatched ⟨true, none⟩ n) :=
      (waiting_keeps_control (.inr ht) n).2.1
    exact worker_orderly hcontrol (watched_keeps_scopes ⟨true, none⟩ n).2.1 hc cause

theorem worker_fatal_on_overflow_twice :
    twiceRegion.Tidy ∧
      ((∃ k, worker (invoke 100) 0 [0] none twiceIdle = .starved k) ∨
        ∃ e k, worker (invoke 100) 0 [0] none twiceIdle = .done e k ∧ e.FatalOnOverflow) ∧
      (worker (invokeWatched ⟨true, none⟩ 100) 0 [0] none).Elides (worker (invoke 100) 0 [0] none) ∧
      (worker (invokeWatched ⟨true, none⟩ 100) 0 [0] none).Meets (fun e _ => e.FatalOnOverflow)
        ⟨fun _ _ => False, fun _ => True, fun _ => True⟩ twiceIdle :=
  ⟨twice_tidy, worker_fatal_on_overflow 100 0 [0] none twiceIdle twiceRegion twice_tidy
    fun _ hc _ => List.mem_singleton.mp hc⟩

end BlockEngine
