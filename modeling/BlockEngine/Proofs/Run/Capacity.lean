/-
  BlockEngine.Proofs.Run.Capacity — larger stacks never change a run that had enough.

  No part of the interpreter looks at how much a stack holds but to refuse a push, and no native can go
  on after a refusal. So a run whose stacks were never full does the same on larger ones, step for step.

  Proved: `capacities_never_matter`. A run of standard blocks that does not end with a stack's error ends
  alike, with the same results and the same output, on every interpreter whose stacks hold no less.
-/

import BlockEngine.Proofs.Run.Isolation

namespace BlockEngine

open Work

/-! ## Comparing capacities -/

structure Limits.AtMost (a b : Limits) : Prop where
  operands : a.operands ≤ b.operands
  control : a.control ≤ b.control
  bindings : a.bindings ≤ b.bindings
  calls : a.calls ≤ b.calls

theorem Limits.AtMost.exists_plus {a b : Limits} (h : a.AtMost b) : ∃ more, b = a.plus more := by
  refine ⟨⟨b.operands - a.operands, b.control - a.control, b.bindings - a.bindings, b.calls - a.calls⟩, ?_⟩
  obtain ⟨ho, hc, hb, hf⟩ := h
  simp only [Limits.plus, Nat.add_sub_cancel' ho, Nat.add_sub_cancel' hc, Nat.add_sub_cancel' hb,
    Nat.add_sub_cancel' hf]

def Fault.IsStack (f : Fault) : Prop := ∃ e, f = .error (.stack e)

/-- Two runs, the second with stacks that hold more. The first may starve, or break down at a stack. -/
def Limits.link (more : Limits) : Link where
  past := {}
  more := more
  host := id
  excuses := Fault.IsStack
  grants _ := False
  firstStarves := True
  secondStarves := False
  resumes := Machine.MayResume.refl
  host_after _ := rfl
  host_roomier _ := rfl
  roomy := .inl rfl
  overflows := .inr fun e => ⟨e, rfl⟩

theorem Limits.second_link (more : Limits) (m : Machine) : more.link.second m = m.roomier more := by
  show (m.after {}).roomier more = m.roomier more
  rw [Machine.after_nothing]

/-! ## Chains with larger stacks -/

section

variable {p : Program} (R : Region p) (more : Limits) (n : Nat)

theorem invoke_roomier {m : Machine} (hp : m.program = p) (hs : m.Scoped) {c : ChainId} (hc : R.chains c) :
    Outcome.Follows more.link (invoke n c [] m) (invoke n c [] (m.roomier more)) := by
  have hmirrors : Outcome.Follows more.link ((invoke n c [] m).driven id) ((invoke n c [] (m.roomier more)).driven id) :=
    more.second_link m ▸ invoke_mirrors (l := more.link) trivial (Nat.le_refl n) c [] m (.inl rfl)
  -- Standard blocks never wait for the host, on stacks of any size.
  have hflows : ∀ k : Machine, k.program = p → k.Scoped → (invoke n c [] k).driven id = invoke n c [] k := by
    rintro k rfl hk
    have hkeep : (invoke n c []).Meets _ _ k :=
      invoke_keeps_control R True False (.inl trivial) n hc hk False.elim fun _ hv => (by cases hv)
    exact Outcome.Meets.driven_eq (fun _ => id) hkeep
  rwa [hflows m hp hs, hflows (m.roomier more) hp hs] at hmirrors

/-- Entry chains that are run without a full stack are run alike on larger stacks. -/
theorem runMains_roomier (cs : List ChainId) (hc : ∀ c ∈ cs, p.isMain c = true → R.chains c) (results : List Value)
    {m : Machine} (hp : m.program = p) (hs : m.Scoped) {e : Ending} {k : Machine}
    (h : runMains (invoke n) cs results m = .done e k) (he : ∀ x, e.error ≠ some (.stack x)) :
    runMains (invoke n) cs results (m.roomier more) = .done e (k.roomier more) := by
  induction cs generalizing results m with
  | nil =>
    cases h
    rfl
  | cons c cs ih =>
    rw [List.forall_mem_cons] at hc
    cases hmain : p.isMain c with
    | false =>
      have hskip : ∀ l : Machine, l.program = p → runMains (invoke n) (c :: cs) results l = runMains (invoke n) cs results l := by
        rintro l rfl
        rw [runMains, bind_apply]
        show (if !l.program.isMain c then _ else _ : Work Ending) l = _
        rw [hmain]
        rfl
      rw [hskip m hp] at h
      rw [hskip (m.roomier more) hp]
      exact ih hc.2 results hp hs h
    | true =>
      have hstep : ∀ l : Machine, l.program = p → runMains (invoke n) (c :: cs) results l =
          (invoke n c [] l).attempt.bind (afterMain (invoke n) cs results) := by
        rintro l rfl
        exact runMains_cons hmain cs results
      have hfollow := invoke_roomier R more n hp hs (hc.1 hmain)
      have hrestores : (invoke n c []).Meets _ _ m := invoke_restores_frames n c [] hs
      unfold Meets at hrestores
      rw [hstep m hp] at h
      rw [hstep (m.roomier more) hp]
      generalize invoke n c [] m = o at h hfollow hrestores
      generalize invoke n c [] (m.roomier more) = o' at hfollow ⊢
      cases hfollow with
      | done r hfit =>
        rw [more.second_link]
        cases r with
        | error x =>
          cases h
          rfl
        | ok v => exact ih hc.2 (results ++ [v]) (hrestores.program.trans hp) (hrestores.toScoped hs) h
      | fault f l =>
        rw [more.second_link]
        cases h
        rfl
      | starved l o _ => cases h
      | starves o l hl => exact hl.elim
      | excused l o hf =>
        obtain ⟨x, rfl⟩ := hf
        cases h
        exact absurd rfl (he x)
      | granted o l hl => exact hl.elim

end

/-! ## Runs with larger stacks -/

def Machine.withLimits (m : Machine) (L : Limits) : Machine := { m with exec.limits := L }

/-- Raising capacities never changes a run that had enough of them. Whatever program of standard blocks,
    calls and placeholders is run, whatever the interpreter was used for, and however long it takes: a run
    that ends without a stack's error ends with the same status, error and results where no stack holds
    less, with the same output printed, the same calls recorded and the same values in storage. -/
theorem capacities_never_matter {L L' : Limits} (hle : L.AtMost L') (n : Nat) (r : RegistryId) (cs : List ChainId)
    (cause : Option CancelCause) (m : Machine) (R : Region (m.program.link r cs))
    (hc : ∀ c ∈ cs, (m.program.link r cs).isMain c = true → R.chains c) {e : Ending} {k : Machine}
    (h : worker (invoke n) r cs cause (m.withLimits L) = .done e k) (he : ∀ s, e.error ≠ some (.stack s)) :
    ∃ k', worker (invoke n) r cs cause (m.withLimits L') = .done e k' ∧ k'.host.output = k.host.output ∧
      k'.journal = k.journal ∧ k'.storage = k.storage ∧ k'.program = k.program := by
  obtain ⟨more, rfl⟩ := hle.exists_plus
  let start : Machine :=
    { m with
      exec := { m.exec.emptied with limits := L, cancelled := cause }
      storage := m.storage.releaseAll m.exec.held
      program := m.program.link r cs }
  have hrun : runMains (invoke n) cs [] (start.roomier more) = .done e (k.roomier more) :=
    runMains_roomier (m := start) R more n cs hc [] rfl rfl h he
  exact ⟨k.roomier more, hrun, rfl, rfl, rfl, rfl⟩

/-- Stacks that hold no more than `twice` needs. -/
def twiceLimits : Limits := ⟨2, 2, 0, 1⟩

theorem capacities_never_matter_twice :
    ∃ e k k', worker (invoke 100) 0 [0] none (twiceIdle.withLimits twiceLimits) = .done e k ∧ e.error = none ∧
      worker (invoke 100) 0 [0] none (twiceIdle.withLimits .standard) = .done e k' ∧
      k'.host.output = k.host.output := by
  have hends : (worker (invoke 100) 0 [0] none (twiceIdle.withLimits twiceLimits)).isDoneWith
      (fun e _ => e.error.isNone) = true := by decide +kernel
  obtain ⟨e, k, h, hok⟩ := Outcome.eq_done_of_isDoneWith hends
  have he : e.error = none := Option.isNone_iff_eq_none.mp hok
  have hle : twiceLimits.AtMost .standard := ⟨by decide, by decide, by decide, by decide⟩
  obtain ⟨k', h', hout, -⟩ := capacities_never_matter hle 100 0 [0] none twiceIdle twiceRegion
    (fun _ hc _ => List.mem_singleton.mp hc) h (by simp [he])
  exact ⟨e, k, k', h, he, h', hout⟩

end BlockEngine
