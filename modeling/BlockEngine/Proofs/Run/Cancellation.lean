/-
  BlockEngine.Proofs.Run.Cancellation — a run that is cancelled ends at once, and as cancelled.

  A cancellation is found by checkpoints alone: the walk comes by one before each block of a chain. Here
  the run waits right before each, so that its host may cancel it there (`Watch.waits`); the waits are
  all that this adds.

  Proved: `cancellation_is_prompt`. Whichever checkpoint finds a run cancelled, in a call of a call in an
  argument or anywhere else, no native is called any more, and the run ends cancelled, with the
  cancellation itself as its error and the results of the entry chains completed until then.
-/

import BlockEngine.Proofs.Library.Stopping

namespace BlockEngine

namespace Outcome

variable {α β : Type}

/-- What an outcome comes to when it is resumed some times. -/
inductive Comes : Outcome α → Outcome α → Prop
  | here (o : Outcome α) : Comes o o
  | resumed {m k : Machine} {resume : Machine → Outcome α} {o : Outcome α} :
      m.MayResume k → Comes (resume k) o → Comes (.paused m resume) o

theorem Comes.attempt {o : Outcome α} {o' : Outcome (Except Fault α)} (h : o.attempt.Comes o') :
    ∃ o₁, o.Comes o₁ ∧ o' = o₁.attempt := by
  induction o with
  | paused m resume ih =>
    cases h with
    | here => exact ⟨_, .here _, rfl⟩
    | resumed hk h =>
      obtain ⟨o₁, ho, rfl⟩ := ih _ h
      exact ⟨o₁, .resumed hk ho, rfl⟩
  | _ =>
    cases h
    exact ⟨_, .here _, rfl⟩

/-- Where an outcome waits that goes on with another. -/
theorem Comes.bind {o : Outcome α} {f : α → Machine → Outcome β} {m : Machine} {resume : Machine → Outcome β}
    (h : (o.bind f).Comes (.paused m resume)) :
    (∃ resume', o.Comes (.paused m resume') ∧ resume = fun k => (resume' k).bind f) ∨
      ∃ a k, o.Comes (.done a k) ∧ (f a k).Comes (.paused m resume) := by
  induction o with
  | done a k => exact .inr ⟨a, k, .here _, h⟩
  | fault x k => cases h
  | starved k => cases h
  | paused k resume' ih =>
    cases h with
    | here => exact .inl ⟨resume', .here _, rfl⟩
    | resumed hk h =>
      rcases ih _ h with ⟨r, hr, rfl⟩ | ⟨a, l, ha, hl⟩
      · exact .inl ⟨r, .resumed hk hr, rfl⟩
      · exact .inr ⟨a, l, .resumed hk ha, hl⟩

theorem Comes.meets {o o' : Outcome α} {Q : α → Machine → Prop} {E : Exits} (h : o.Comes o') (ho : o.Meets Q E) :
    o'.Meets Q E := by
  induction h with
  | here => exact ho
  | resumed hk _ ih => exact ih (ho.2 _ hk)

theorem Comes.echoes {p : Program} {fine : α → Prop} {raise : Error → α} {o o₁ : Outcome α} (h : o.Comes o₁)
    {o' : (Stop → Fault) → Outcome α} (ho : o.Echoes p fine raise o') : ∃ o₁', o₁.Echoes p fine raise o₁' := by
  induction h generalizing o' with
  | here => exact ⟨o', ho⟩
  | resumed hk _ ih =>
    obtain ⟨_, -, h⟩ := ho
    exact ih (h _ hk).1

/-- Resumed once it is cancelled, it is over. -/
theorem Echoes.cancelled {p : Program} {fine : α → Prop} {raise : Error → α} {m : Machine} {resume : Machine → Outcome α}
    {o' : (Stop → Fault) → Outcome α} (h : (Outcome.paused m resume).Echoes p fine raise o') {k : Machine}
    (hk : m.MayResume k) {cause : CancelCause} (hc : k.exec.cancelled = some cause) :
    ∃ l, resume k = .done (raise (.cancelled cause)) l ∧ l.journal = k.journal := by
  obtain ⟨resume', -, h⟩ := h
  obtain ⟨h, hstop⟩ := h k hk
  have hsame : (resume' · k) = fun t => .fault (t (.cancelled cause)) k := funext fun t => hstop cause hc t
  rw [hsame] at h
  exact h.of_fault

end Outcome

namespace Work

/-- The entry chains among these were completed in order, with these results. -/
inductive Completed (invoke : Invoker) : Machine → List ChainId → List Value → Machine → Prop
  | nil (m : Machine) : Completed invoke m [] [] m
  | passed {m k : Machine} {c : ChainId} {cs : List ChainId} {vs : List Value} :
      m.program.isMain c = false → Completed invoke m cs vs k → Completed invoke m (c :: cs) vs k
  | ended {m l k : Machine} {c : ChainId} {cs : List ChainId} {v : Value} {vs : List Value} :
      m.program.isMain c = true → (invoke c [] m).Comes (.done (.ok v) l) → Completed invoke l cs vs k →
        Completed invoke m (c :: cs) (v :: vs) k

/-- Where a run waits: some entry chains are completed, and the next is under way. -/
theorem runMains_comes {invoke : Invoker} (cs : List ChainId) (results : List Value) {m k : Machine}
    {resume : Machine → Outcome Ending} (h : (runMains invoke cs results m).Comes (.paused k resume)) :
    ∃ before c rest vs l resume', cs = before ++ c :: rest ∧ Completed invoke m before vs l ∧
      l.program.isMain c = true ∧ (invoke c [] l).Comes (.paused k resume') ∧
      resume = fun k => (resume' k).attempt.bind (afterMain invoke rest (results ++ vs)) := by
  induction cs generalizing results m with
  | nil => cases h
  | cons c cs ih =>
    cases hmain : m.program.isMain c with
    | false =>
      rw [runMains_pass hmain] at h
      obtain ⟨before, d, rest, vs, l, resume', rfl, hdone, hd, hd', hresume⟩ := ih results h
      exact ⟨c :: before, d, rest, vs, l, resume', rfl, .passed hmain hdone, hd, hd', hresume⟩
    | true =>
      rw [runMains_cons hmain] at h
      rcases h.bind with ⟨resume', h', rfl⟩ | ⟨r, l, h', hl⟩
      · obtain ⟨o, ho, heq⟩ := h'.attempt
        cases o with
        | paused k' resume'' =>
          cases heq
          exact ⟨[], c, cs, [], m, resume'', rfl, .nil m, hmain, ho, by rw [List.append_nil]⟩
        | _ => cases heq
      · obtain ⟨o, ho, heq⟩ := h'.attempt
        rcases r with f | (e | v)
        · cases hl
        · cases hl
        · cases o with
          | done a k' =>
            cases heq
            obtain ⟨before, d, rest, vs, l', resume', rfl, hdone, hd, hd', hresume⟩ := ih (results ++ [v]) hl
            refine ⟨c :: before, d, rest, v :: vs, l', resume', rfl, .ended hmain ho hdone, hd, hd', ?_⟩
            rw [hresume, List.append_assoc, List.singleton_append]
          | _ => cases heq

/-- Completing chains leaves the interpreter as it was found. -/
theorem Completed.restores {invoke : Invoker} (hi : Restoring invoke) {m k : Machine} {cs : List ChainId} {vs : List Value}
    (h : Completed invoke m cs vs k) (hs : m.Scoped) : k.program = m.program ∧ k.Scoped := by
  induction h with
  | nil m => exact ⟨rfl, hs⟩
  | passed _ _ ih => exact ih hs
  | ended _ hv _ ih =>
    have hl := hv.meets (hi _ _ _ hs)
    obtain ⟨hp, hs⟩ := ih (hl.toScoped hs)
    exact ⟨hp.trans hl.program, hs⟩

end Work

open Work

/-- A run of standard blocks, calls, placeholders and blocks without code that waits before each checkpoint
    is the run but for the waits, and wherever it waits, some of its entry chains are completed and the next
    is under way; if it is resumed once it is cancelled, it calls no native any more and ends cancelled, with
    the cancellation as its error and the results of those chains. -/
theorem cancellation_is_prompt (n : Nat) (r : RegistryId) (cs : List ChainId) (cause : Option CancelCause) (m : Machine)
    (G : Realm (m.program.link r cs)) (hcs : ∀ c ∈ cs, (m.program.link r cs).isMain c = true → G.chains c)
    {k : Machine} {resume : Machine → Outcome Ending}
    (h : (worker (invokeWatched ⟨true, none⟩ n) r cs cause m).Comes (.paused k resume)) :
    (worker (invokeWatched ⟨true, none⟩ n) r cs cause).Elides (worker (invoke n) r cs cause) ∧
    ∃ before c rest results l, cs = before ++ c :: rest ∧
      Completed (invokeWatched ⟨true, none⟩ n) (m.begun r cs cause) before results l ∧
      (∃ inner, (invokeWatched ⟨true, none⟩ n c [] l).Comes (.paused k inner)) ∧
      ∀ k' cause', k.MayResume k' → k'.exec.cancelled = some cause' →
        ∃ l', resume k' = .done ⟨.cancelled, some (.cancelled cause'), results⟩ l' ∧ l'.journal = k'.journal := by
  refine ⟨worker_waits n r cs cause, ?_⟩
  rw [worker_apply] at h
  obtain ⟨before, c, rest, results, l, inner, hsplit, hdone, hmain, hinner, rfl⟩ := runMains_comes cs [] h
  obtain ⟨hprogram, hscoped⟩ := hdone.restores (watched_keeps_scopes _ n).2.1 rfl
  have hmain : (m.program.link r cs).isMain c = true := by
    have hlink : l.program = m.program.link r cs := hprogram
    rwa [hlink] at hmain
  have hc : G.chains c := hcs c (hsplit ▸ List.mem_append_right _ List.mem_cons_self) hmain
  obtain ⟨o', hechoes⟩ := hinner.echoes ((watched_echoes true G n).2.1 c [] l hc hprogram hscoped)
  refine ⟨before, c, rest, results, l, hsplit, hdone, ⟨inner, hinner⟩, fun k' cause' hk hcancelled => ?_⟩
  obtain ⟨l', hl, hj⟩ := hechoes.cancelled hk hcancelled
  refine ⟨l', ?_, hj⟩
  show (inner k').attempt.bind _ = _
  rw [hl]
  rfl

/-- What an outcome comes to when it is resumed on the machine it is shown with, some times. -/
def Outcome.later {α : Type} : Nat → Outcome α → Outcome α
  | n + 1, .paused m resume => (resume m).later n
  | _, o => o

def Outcome.machine? {α : Type} : Outcome α → Option Machine
  | .paused m _ => some m
  | _ => none

theorem Outcome.comes_later {α : Type} (n : Nat) (o : Outcome α) : o.Comes (o.later n) := by
  induction n generalizing o with
  | zero => cases o <;> exact .here _
  | succ n ih =>
    cases o with
    | paused m resume => exact .resumed (.refl m) (ih (resume m))
    | _ => exact .here _

/-- In the program that prints a line twice, at the checkpoint before it is printed the first time. -/
theorem cancellation_is_prompt_twice :
    ∃ k resume, (worker (invokeWatched ⟨true, none⟩ 12) 0 [0] none twiceIdle).Comes (.paused k resume) ∧
      k.journal.map (·.block) = [1, 0] ∧
      ∃ l, resume { k with exec.cancelled := some .stopped } = .done ⟨.cancelled, some (.cancelled .stopped), []⟩ l ∧
        l.journal.map (·.block) = [1, 0] := by
  have hwaits : (((worker (invokeWatched ⟨true, none⟩ 12) 0 [0] none twiceIdle).later 2).machine?.map fun k =>
      k.journal.map (·.block)) = some [1, 0] := by decide +kernel
  have hcomes := (worker (invokeWatched ⟨true, none⟩ 12) 0 [0] none twiceIdle).comes_later 2
  generalize (worker (invokeWatched ⟨true, none⟩ 12) 0 [0] none twiceIdle).later 2 = o at hwaits hcomes
  cases o with
  | paused k resume =>
    have hjournal : k.journal.map (·.block) = [1, 0] := Option.some.inj hwaits
    obtain ⟨-, before, c, rest, results, l, hsplit, hdone, -, hprompt⟩ :=
      cancellation_is_prompt 12 0 [0] none twiceIdle twiceRegion.realm (fun _ hc _ => List.mem_singleton.mp hc) hcomes
    obtain ⟨l', hl, hj⟩ := hprompt { k with exec.cancelled := some .stopped } .stopped ⟨rfl, rfl⟩ rfl
    have hbefore : before = [] := by
      have := congrArg List.length hsplit
      simp only [List.length_cons, List.length_append, List.length_nil] at this
      exact List.eq_nil_of_length_eq_zero (by omega)
    subst hbefore
    cases hdone
    exact ⟨k, resume, hcomes, hjournal, l', hl, hj ▸ hjournal⟩
  | _ => cases hwaits

end BlockEngine
