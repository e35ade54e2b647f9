/-
  BlockEngine.Proofs.Run.Rooted — runs of honest natives leave a machine grounded.

  Proved of every program whose natives are all honest, as long as the host leaves the machine grounded:
  - `paced_grounds`: wherever an evaluation, an invocation or a walk is seen the machine is grounded, and what
    they end with is stored in cells that were handed out.
  - `worker_grounds`: so it is throughout a run, from the linking of its program on.
-/

import BlockEngine.Proofs.Machine.Grounding
import BlockEngine.Proofs.Run.Linking

namespace BlockEngine

namespace Work

open Storage

variable {n : Cell}

/-! ## Evaluation -/

/-- What a block yields, unless an error stops it, is stored in cells that were handed out. -/
abbrev YieldBelow (k : Cell) (r : Except Error (Value × Asked)) : Prop :=
  ∀ v asked, r = .ok (v, asked) → v.StoredBelow k

/-- Evaluating any block after a value that is known leaves the machine rooted. -/
def GroundsEval (eval : Evaluator) : Prop :=
  ∀ n b index mark bare prior, (∀ v ∈ prior, v.StoredBelow n) → (eval b index mark bare prior).Grounds n YieldBelow

theorem releasePrior_sober {prior : Option Value} (h : ∀ v ∈ prior, v.StoredBelow n) :
    (releasePrior prior).Sober n := by
  cases prior with
  | none => exact sober_pure ()
  | some v => exact sober_release (h v rfl)

theorem pushAll_sober {vs : List Value} (h : ∀ v ∈ vs, v.StoredBelow n) : (pushAll vs).Sober n := by
  induction vs generalizing n with
  | nil => exact sober_pure ()
  | cons v vs ih =>
    obtain ⟨hfirst, hrest⟩ := List.forall_mem_cons.mp h
    exact grounds_bind (sober_pushOperand hfirst) fun k _ hle _ => ih fun w hw => (hrest w hw).mono hle

/-- What no input declares is a scalar, or was yielded by the branch before. -/
theorem storedBelow_hidden {d : Definition} {mark : Marker} {prior : Option Value} (h : ∀ v ∈ prior, v.StoredBelow n) :
    ∀ v ∈ hidden d mark prior, v.StoredBelow n := by
  intro v hv
  simp only [hidden, List.mem_append] at hv
  rcases hv with ((hv | hv) | hv) | hv
  · cases hr : d.role with
    | parameter i =>
      rw [hr] at hv
      rw [List.mem_singleton.mp hv]
      exact Value.storedBelow_scalar _ _ _
    | _ =>
      rw [hr] at hv
      cases hv
  · split at hv
    · rw [List.mem_singleton.mp hv]
      exact Value.storedBelow_scalar _ _ _
    · cases hv
  · split at hv
    · rw [List.mem_singleton.mp hv]
      exact Value.storedBelow_scalar _ _ _
    · cases hv
  · exact h v (Option.mem_toList.mp hv)

theorem pushHidden_sober (d : Definition) (index : Int) (mark : Marker) {prior : Option Value}
    (h : ∀ v ∈ prior, v.StoredBelow n) : (pushHidden d index mark prior).Sober n := by
  rw [pushHidden_eq]
  split
  · exact grounds_bind (releasePrior_sober h) fun _ _ _ _ => sober_pure _
  · exact grounds_bind (pushAll_sober (storedBelow_hidden h)) fun _ _ _ _ => sober_pure _

section

variable {eval : Evaluator} (he : GroundsEval eval)
include he

theorem pushSlot_sober (d : Definition) (index : Int) (s : Slot) : (pushSlot eval d index s).Sober n := by
  unfold pushSlot
  split
  · exact grounds_bind (sober_pushOperand (Value.storedBelow_scalar _ _ _)) fun _ _ _ _ => sober_pure _
  · exact grounds_bind (sober_pushOperand (Value.storedBelow_scalar _ _ _)) fun _ _ _ _ => sober_pure _
  · split
    · exact grounds_crash _
    · refine grounds_bind (he n _ _ _ _ _ nofun) fun k r _ hr => ?_
      rcases r with e | ⟨v, asked⟩
      · exact sober_pure _
      · exact grounds_bind (sober_pushOperand (hr v asked rfl)) fun _ _ _ _ => sober_pure _
  · exact sober_pure _
  · exact sober_pure _

theorem pushSlots_sober (d : Definition) (b : BlockId) (index : Int) (is : List Nat) :
    (pushSlots eval d b index is).Sober n := by
  induction is generalizing n with
  | nil => exact sober_pure _
  | cons i is ih =>
    refine grounds_bind (sober_read _) fun k s _ _ => ?_
    split
    · exact ih
    · refine grounds_bind (pushSlot_sober he d index _) fun k r _ _ => ?_
      rcases r with e | -
      · exact sober_pure _
      · exact ih

theorem pushOperands_sober (d : Definition) (b : BlockId) (index : Int) (mark : Marker) (bare : Bool)
    {prior : Option Value} (h : ∀ v ∈ prior, v.StoredBelow n) :
    (pushOperands eval d b index mark bare prior).Sober n := by
  refine grounds_bind (pushHidden_sober d index mark h) fun k r _ _ => ?_
  rcases r with e | -
  · exact sober_pure _
  · show (pushDeclared eval d b index mark bare).Sober k
    unfold pushDeclared
    split
    · exact sober_pure _
    · exact grounds_bind (sober_read _) fun _ _ _ _ => pushSlots_sober he d b index _

end

section

variable {invoke : Invoker} (hi : ∀ k c args, (invoke c args).Grounds k ResultBelow)
include hi

/-- What a native is called on is known, and so is what it comes to. -/
theorem callNative_grounds {native : Native} (hnative : native.Honest) (e : EvalState) (mark : Marker) (base : Nat) :
    (callNative invoke native e mark base).Grounds n fun k r => r.1.StoredBelow k := by
  have hwindow : (window base).Grounds n fun k args => ∀ v ∈ args, v.StoredBelow k := by
    refine grounds_read fun m hm _ v hv => ?_
    obtain ⟨u, hu, rfl⟩ := List.mem_map.mp (List.mem_reverse.mp hv)
    have hheld : u ∈ m.exec.operands := List.mem_of_mem_take hu
    exact m.storage.storedBelow_view (hm.grounded.held u (by simp only [Exec.held, List.mem_append]; tauto))
  have hmodify : ∀ {k : Cell} {f : Machine → Machine}, (∀ m, (f m).program = m.program) →
      (∀ m, (f m).host.kept = m.host.kept) → (∀ m, (f m).storage = m.storage) →
      (∀ m, (f m).exec.held = m.exec.held) → (modify f).Sober k := sober_modify
  refine grounds_bind hwindow fun k₁ args _ hargs => grounds_bind (sober_read _) fun k₂ outer h₂ _ => ?_
  refine grounds_bind (hmodify (fun _ => rfl) (fun _ => rfl) (fun _ => rfl) fun _ => rfl) fun k₃ _ h₃ _ => ?_
  have hperform : (perform invoke (native args)).Grounds k₃ fun k v => v.StoredBelow k :=
    perform_grounds hi (fun _ _ v hle hv => hv.mono hle)
      (hnative k₃ args fun v hv => (hargs v hv).mono (Nat.le_trans h₂ h₃))
  refine grounds_bind hperform fun k₄ v _ hv => grounds_bind (sober_read _) fun k₅ inner h₅ _ => ?_
  refine grounds_bind (hmodify (fun _ => rfl) (fun _ => rfl) (fun _ => rfl) fun _ => rfl) fun k₆ _ h₆ _ => ?_
  exact grounds_bind (sober_truncateOperands base) fun k₇ _ h₇ _ => grounds_pure fun k₈ h₈ =>
    hv.mono (Nat.le_trans h₅ (Nat.le_trans h₆ (Nat.le_trans h₇ h₈)))

theorem evaluateWith_grounds {eval : Evaluator} (he : GroundsEval eval) : GroundsEval (evaluateWith eval invoke) := by
  intro n b index mark bare prior h
  have herror : ∀ {k : Cell} (e : Error),
      (Pure.pure (.error e) : Work (Except Error (Value × Asked))).Grounds k YieldBelow := fun e =>
    grounds_pure fun _ _ _ _ => nofun
  have hkind : (kindOf b).Grounds n fun _ d => ∀ native, d.native = some native → native.Honest :=
    grounds_read fun m hm _ => hm.honest b
  refine grounds_bind hkind fun k₁ d h₁ hd => ?_
  have hprior : ∀ v ∈ prior, v.StoredBelow k₁ := fun v hv => (h v hv).mono h₁
  split
  · exact grounds_bind (releasePrior_sober hprior) fun _ _ _ _ => herror _
  next native hnative =>
    refine grounds_bind (sober_read _) fun k₂ base h₂ _ => grounds_bind
      (pushOperands_sober he d b index mark bare fun v hv => (hprior v hv).mono h₂) fun k₃ r _ _ => ?_
    rcases r with e | -
    · exact grounds_bind (sober_truncateOperands _) fun _ _ _ _ => herror e
    · refine grounds_bind (callNative_grounds hi (hd native hnative) _ mark base) fun k₄ r _ hr => ?_
      dsimp only
      split
      · exact grounds_bind (sober_release hr) fun _ _ _ _ => herror _
      · refine grounds_pure fun k₅ h₅ v asked hv => ?_
        cases hv
        exact hr.mono h₅

end

/-! ## The walk -/

theorem blockAt_sober (c : ChainId) (i : Nat) : (blockAt c i).Sober n := by
  refine grounds_bind (sober_read _) fun _ bs _ _ => ?_
  split
  · exact sober_pure _
  · exact grounds_crash _

theorem badJump_sober (c : ChainId) (i : Nat) : (badJump c i).Sober n :=
  grounds_bind (blockAt_sober c i) fun _ _ _ _ => grounds_bind (sober_read _) fun _ _ _ _ => sober_pure _

theorem openBody_sober (depth i : Nat) {v : Value} (hv : v.StoredBelow n) : (openBody depth i v).Sober n :=
  grounds_bind (sober_pushControl (f := .body i v) hv) fun _ _ _ _ => grounds_bind (sober_read _) fun _ _ _ _ =>
    grounds_bind (sober_setLayer depth _) fun _ _ _ _ => sober_pure _

theorem leave_sober (c : ChainId) (depth : Nat) (cursor : Cursor) (i target : Nat) {v : Value} (hv : v.StoredBelow n)
    (skip : Bool) : (leave c depth cursor i target v skip).Sober n := by
  refine grounds_bind (blockAt_sober c i) fun k b hle _ => grounds_bind (sober_read _) fun k' d hle' _ => ?_
  have hv' : v.StoredBelow k' := hv.mono (Nat.le_trans hle hle')
  split
  · exact grounds_bind (openBody_sober depth i hv') fun _ _ _ _ => sober_pure _
  · exact grounds_bind (sober_release hv') fun _ _ _ _ => sober_pure _

theorem passOver_sober (depth : Nat) (cursor : Cursor) (t : BlockType) : (passOver depth cursor t).Sober n := by
  unfold passOver
  split
  · exact grounds_bind (openBody_sober _ _ (Value.storedBelow_scalar _ _ _)) fun _ _ _ _ => sober_pure _
  · exact sober_pure _

/-- What closing a body leaves for the block that closed it is stored in cells that were handed out. -/
abbrev PriorBelow (k : Cell) (closed : Closed) : Prop :=
  ∀ cursor prior, closed = .onward cursor prior → ∀ v ∈ prior, v.StoredBelow k

theorem grounds_over (turn : Turn) : (Pure.pure (.over turn) : Work Closed).Grounds n PriorBelow :=
  grounds_pure fun _ _ _ _ => nofun

theorem grounds_onward {cursor : Cursor} {prior : Option Value} (h : ∀ v ∈ prior, v.StoredBelow n) :
    (Pure.pure (.onward cursor prior) : Work Closed).Grounds n PriorBelow := by
  refine grounds_pure fun k hle cursor' prior' hclosed v hv => ?_
  cases hclosed
  exact (h v hv).mono hle

section

variable {eval : Evaluator} (he : GroundsEval eval) (c : ChainId) (depth : Nat) (cursor : Cursor)
include he

theorem reenter_grounds (t : BlockType) (opener : Nat) {v : Value} (hv : v.StoredBelow n) :
    (reenter eval c depth cursor t opener v).Grounds n PriorBelow := by
  refine grounds_bind (blockAt_sober c opener) fun k₁ b h₁ _ => grounds_bind
    (he k₁ _ _ _ _ _ fun u hu => Option.mem_some.mp hu ▸ hv.mono h₁) fun k₂ r _ hr => ?_
  rcases r with e | ⟨w, asked⟩
  · exact grounds_over _
  refine grounds_bind (sober_read _) fun k₃ finished h₃ _ => ?_
  have hw : w.StoredBelow k₃ := (hr w asked rfl).mono h₃
  split
  · exact grounds_bind (sober_release hw) fun _ _ _ _ => grounds_over _
  split
  · refine grounds_bind (sober_release hw) fun _ _ _ _ => grounds_bind (sober_read _) fun _ bs _ _ => ?_
    split
    · exact grounds_bind (badJump_sober c opener) fun _ _ _ _ => grounds_over _
    · exact grounds_over _
  · split
    · exact grounds_bind (sober_release hw) fun _ _ _ _ => grounds_over _
    · exact grounds_onward fun u hu => Option.mem_some.mp hu ▸ hw

theorem closeBody_grounds (t : BlockType) : (closeBody eval c depth cursor t).Grounds n PriorBelow := by
  rw [closeBody_eq]
  refine grounds_bind (sober_read _) fun k₁ layer _ _ => ?_
  split
  · split
    · exact grounds_over _
    · exact grounds_bind (sober_read _) fun _ _ _ _ => grounds_crash _
  have htake : (takeBody depth layer).Grounds k₁ fun k frame => frame.2.StoredBelow k :=
    grounds_bind grounds_popBody fun k₂ frame _ hv => grounds_bind (sober_closeScope _ _) fun k₃ _ h₃ _ =>
      grounds_bind (sober_setLayer _ _) fun k₄ _ h₄ _ => grounds_pure fun k₅ h₅ =>
        hv.mono (Nat.le_trans h₃ (Nat.le_trans h₄ h₅))
  refine grounds_bind htake fun k₂ frame _ hv => ?_
  show (closeWith eval c depth t _ frame.1 frame.2).Grounds k₂ PriorBelow
  unfold closeWith
  split
  · refine grounds_bind (sober_release hv) fun _ _ _ _ => ?_
    split
    · exact grounds_over _
    · exact grounds_onward nofun
  · exact reenter_grounds he c depth _ t _ hv

theorem redirect_sober (target : Nat) {v : Value} (hv : v.StoredBelow n) :
    (redirect eval c depth cursor target v).Sober n := by
  refine grounds_bind (blockAt_sober c target) fun k₁ b h₁ _ => grounds_bind
    (he k₁ _ _ _ _ _ fun u hu => Option.mem_some.mp hu ▸ hv.mono h₁) fun k₂ r _ hr => ?_
  rcases r with e | ⟨w, asked⟩
  · exact sober_pure _
  refine grounds_bind (sober_read _) fun k₃ finished h₃ _ => ?_
  have hw : w.StoredBelow k₃ := (hr w asked rfl).mono h₃
  split
  · exact grounds_bind (sober_release hw) fun _ _ _ _ => sober_pure _
  · exact grounds_bind (sober_read _) fun _ bs hle _ => leave_sober _ _ _ _ _ (hw.mono hle) _

theorem enter_sober (b : BlockId) (t : BlockType) {prior : Option Value} (h : ∀ v ∈ prior, v.StoredBelow n) :
    (enter eval c depth cursor b t prior).Sober n := by
  refine grounds_bind (he n _ _ _ _ _ h) fun k₁ r _ hr => ?_
  rcases r with e | ⟨w, asked⟩
  · exact sober_pure _
  refine grounds_bind (sober_read _) fun k₂ finished h₂ _ => ?_
  have hw : w.StoredBelow k₂ := (hr w asked rfl).mono h₂
  split
  · exact grounds_bind (sober_release hw) fun _ _ _ _ => sober_pure _
  split
  · exact leave_sober _ _ _ _ _ hw _
  · refine grounds_bind (sober_read _) fun k₃ bs h₃ _ => ?_
    have hw' : w.StoredBelow k₃ := hw.mono h₃
    dsimp only
    split
    · exact grounds_bind (sober_release hw') fun _ _ _ _ => grounds_bind (badJump_sober c _) fun _ _ _ _ => sober_pure _
    · split
      · exact redirect_sober he c depth _ _ hw'
      · exact leave_sober _ _ _ _ _ hw' _

theorem advance_sober : (advance eval c depth cursor).Sober n := by
  rw [advance_eq]
  refine grounds_bind (sober_read _) fun _ bs _ _ => ?_
  split
  · exact sober_pure _
  refine grounds_bind (sober_read _) fun _ cancelled _ _ => ?_
  split
  · exact sober_pure _
  refine grounds_bind (sober_read _) fun k d _ _ => grounds_bind (Q := PriorBelow) ?_ fun k' closed _ hclosed => ?_
  · split
    · exact closeBody_grounds he c depth cursor _
    · exact grounds_onward nofun
  · rcases closed with turn | ⟨cursor, prior⟩
    · exact sober_pure _
    · simp only [takeUp]
      split
      · exact passOver_sober depth cursor _
      · exact enter_sober he c depth cursor _ _ (hclosed cursor prior rfl)

end

/-! ## Invocations -/

theorem invokeWith_grounds {walk : ChainId → Nat → Work (Option Error)} (hw : ∀ k c depth, (walk c depth).Sober k)
    (c : ChainId) (args : List Value) : (invokeWith walk c args).Grounds n ResultBelow := by
  refine grounds_bind (sober_read _) fun _ base _ _ => grounds_bind (sober_pushCall args) fun _ _ _ _ =>
    grounds_bind (sober_read _) fun k depth _ _ => grounds_bind (hw k c depth) fun _ error _ _ =>
      grounds_bind (sober_closeScope _ _) fun _ _ _ _ => grounds_bind (sober_truncateControl _) fun _ _ _ _ => ?_
  refine grounds_bind (grounds_takeResult depth) fun k₁ v _ hv => grounds_bind sober_popCall fun k₂ _ h₂ _ => ?_
  have hv₂ : v.StoredBelow k₂ := hv.mono h₂
  split
  · exact grounds_bind (sober_release hv₂) fun _ _ _ _ => grounds_pure fun _ _ _ => nofun
  · refine grounds_pure fun k₃ h₃ w hw => ?_
    cases hw
    exact hv₂.mono h₃

/-- However an interpreter waits, honest natives leave its machine grounded. -/
theorem paced_grounds (wait : Machine → Bool) (fuel : Nat) :
    GroundsEval (evaluatePaced wait fuel) ∧ (∀ k c args, (invokePaced wait fuel c args).Grounds k ResultBelow) ∧
      ∀ k c depth cursor, (walkPaced wait fuel c depth cursor).Sober k := by
  induction fuel with
  | zero =>
    refine ⟨fun n b index mark bare prior _ => ?_, fun k c args => ?_, fun k c depth cursor => ?_⟩
    · rw [evaluatePaced]
      exact grounds_starve
    · rw [invokePaced]
      exact grounds_starve
    · rw [walkPaced]
      exact grounds_starve
  | succ fuel ih =>
    obtain ⟨he, hi, hw⟩ := ih
    refine ⟨fun n b index mark bare prior h => ?_, fun k c args => ?_, fun k c depth cursor => ?_⟩
    · rw [evaluatePaced]
      exact grounds_waitingAt wait (evaluateWith_grounds hi he n b index mark bare prior h)
    · rw [invokePaced]
      exact grounds_waitingAt wait (invokeWith_grounds (fun k c depth => hw k c depth {}) c args)
    · rw [walkPaced]
      refine grounds_waitingAt wait (grounds_bind (advance_sober he c depth cursor) fun k turn _ _ => ?_)
      cases turn with
      | next cursor => exact hw k c depth cursor
      | stop error => exact sober_pure _

end Work

/-! ## Runs -/

/-- Natives are not linked. -/
theorem Program.Honest.link {p : Program} (h : p.Honest) (r : RegistryId) (cs : List ChainId) :
    (p.link r cs).Honest := by
  intro b native hnative
  have hkind : ((p.link r cs).kindOf b).unowned = (p.kindOf b).unowned := by
    rw [← kindOf_unlinked, unlinked_link, kindOf_unlinked]
  have hlinked : ((p.link r cs).kindOf b).native = (p.kindOf b).native := congrArg (·.native) hkind
  exact h b native (hlinked ▸ hnative)

namespace Work

theorem drain_sober {n : Cell} : drain.Sober n := fun m hm hle =>
  grounds_freed hm hle rfl rfl (Storage.frees_releaseAll hm.grounded.held m.storage) nofun trivial

/-- Entry chains in order leave the machine grounded, with what they resulted in. -/
theorem runMains_grounds {invoke : Invoker} (hi : ∀ k c args, (invoke c args).Grounds k ResultBelow) (cs : List ChainId)
    {n : Cell} {results : List Value} (h : ∀ v ∈ results, v.StoredBelow n) :
    (runMains invoke cs results).Grounds n fun k e => ∀ v ∈ e.results, v.StoredBelow k := by
  have hkeeps : ∀ {k : Cell}, n ≤ k → ∀ status error,
      (Pure.pure ⟨status, error, results⟩ : Work Ending).Grounds k fun k e => ∀ v ∈ e.results, v.StoredBelow k :=
    fun hle _ _ => grounds_pure fun _ hle' v hv => (h v hv).mono (Nat.le_trans hle hle')
  induction cs generalizing n results with
  | nil => exact hkeeps (Nat.le_refl n) _ _
  | cons c cs ih =>
    refine grounds_bind (sober_read _) fun k main h₁ _ => ?_
    have hmain : ∀ v ∈ results, v.StoredBelow k := fun v hv => (h v hv).mono h₁
    split
    · exact ih hmain (fun hle => hkeeps (Nat.le_trans h₁ hle))
    · have hattempt : (attempt (invoke c [])).Grounds k fun k r => ∀ a, r = .ok a → ResultBelow k a := fun m hm hle =>
        (hi k c [] m hm hle).attempt
      refine grounds_bind hattempt fun k' r h₂ hr => ?_
      have hle : n ≤ k' := Nat.le_trans h₁ h₂
      rcases r with f | e | v
      · exact hkeeps hle _ _
      · exact hkeeps hle _ _
      · have hall : ∀ u ∈ results ++ [v], u.StoredBelow k' := by
          intro u hu
          rcases List.mem_append.mp hu with hu | hu
          · exact (h u hu).mono hle
          · rw [List.mem_singleton.mp hu]
            exact hr _ rfl v rfl
        exact ih hall fun hle' _ _ => grounds_pure fun _ hle'' u hu => (hall u hu).mono (Nat.le_trans hle' hle'')

/-- A run of honest natives leaves the machine grounded wherever it is seen, and so are its results. -/
theorem worker_grounds (wait : Machine → Bool) (fuel : Nat) (r : RegistryId) (cs : List ChainId)
    (cause : Option CancelCause) {m : Machine} (hm : m.Rooted) :
    (worker (invokePaced wait fuel) r cs cause m).Grounds m.storage.next
      fun k e => ∀ v ∈ e.results, v.StoredBelow k := by
  have hlinks : ∀ k, (modify fun m : Machine =>
      { m with exec.cancelled := cause, program := m.program.link r cs }).Sober k := fun k l hl hle =>
    ⟨⟨hl.grounded.same rfl rfl fun _ => .inl, hl.honest.link r cs⟩, hle, trivial⟩
  have hworker : (worker (invokePaced wait fuel) r cs cause).Grounds m.storage.next
      fun k e => ∀ v ∈ e.results, v.StoredBelow k :=
    grounds_bind drain_sober fun k _ _ _ => grounds_bind (hlinks k) fun k' _ _ _ =>
      runMains_grounds (paced_grounds wait fuel).2.1 cs nofun
  exact hworker m hm (Nat.le_refl _)

end Work

end BlockEngine
