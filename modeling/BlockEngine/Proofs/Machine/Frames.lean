/-
  BlockEngine.Proofs.Machine.Frames — arguments and results of the invocations under way.

  Little of what the interpreter does touches what an invocation was given and what it is to return: the
  rest stands aside (`Work.Aside`). Of a native's requests all do but the end of the invocation and the
  call of a chain (`aside_answer`).
-/

import BlockEngine.Proofs.Machine.Observed

namespace BlockEngine

/-- Arguments and result of each invocation under way, the innermost first. -/
def Exec.accounts (x : Exec) : List (List Value × Option Value) := x.calls.map fun f => (f.args, f.result)

theorem Exec.accounts_length (x : Exec) : x.accounts.length = x.calls.length := List.length_map _

def Machine.busy (m : Machine) : Option BlockId := m.exec.eval.map (·.block)

/-- The same program, the same arguments and results, and the same native at work. -/
structure Machine.Alike (m k : Machine) : Prop where
  program : k.program = m.program
  accounts : k.exec.accounts = m.exec.accounts
  busy : k.busy = m.busy

theorem Machine.Alike.refl (m : Machine) : m.Alike m := ⟨rfl, rfl, rfl⟩

theorem Machine.Alike.trans {m k l : Machine} (h : m.Alike k) (h' : k.Alike l) : m.Alike l :=
  ⟨h'.program.trans h.program, h'.accounts.trans h.accounts, h'.busy.trans h.busy⟩

theorem Machine.Alike.symm {m k : Machine} (h : m.Alike k) : k.Alike m := ⟨h.program.symm, h.accounts.symm, h.busy.symm⟩

theorem Machine.Alike.of_exec {m k : Machine} (hp : k.program = m.program) (hc : k.exec.calls = m.exec.calls)
    (he : k.exec.eval = m.exec.eval) : m.Alike k :=
  ⟨hp, by rw [Exec.accounts, Exec.accounts, hc], by rw [Machine.busy, Machine.busy, he]⟩

theorem Machine.MayResume.alike {m k : Machine} (h : m.MayResume k) : m.Alike k := by
  refine .of_exec h.1 ?_ ?_
  all_goals rw [h.2]

/-- Whatever the frames at a depth are changed in, but arguments and result. -/
theorem Exec.accounts_mapFrame (x : Exec) (depth : Nat) {f : CallFrame → CallFrame}
    (hf : ∀ a, ((f a).args, (f a).result) = (a.args, a.result)) : (x.mapFrame depth f).accounts = x.accounts := by
  unfold mapFrame
  split
  · rfl
  · refine List.ext_getElem? fun i => ?_
    simp only [accounts, List.getElem?_map, List.getElem?_modify]
    split
    · cases x.calls[i]? with
      | none => rfl
      | some a => exact congrArg some (hf a)
    · simp

namespace Work

variable {α β : Type}

def Aside (w : Work α) : Prop := ∀ m, w.Meets (fun _ k => m.Alike k) (.all fun k => m.Alike k) m

theorem aside_bind {w : Work α} {f : α → Work β} (hw : w.Aside) (hf : ∀ a, (f a).Aside) : (w >>= f).Aside := by
  intro m
  rw [meets_bind]
  refine (hw m).weaken fun a k hk => ?_
  exact (hf a k).mono (fun _ _ => hk.trans) (fun _ _ => hk.trans) (fun _ => hk.trans) fun _ => hk.trans

theorem aside_pure (a : α) : (Pure.pure a : Work α).Aside := fun m => .refl m

theorem aside_read (f : Machine → α) : (read f).Aside := fun m => .refl m

theorem aside_crash (f : Fault) : (crash f : Work α).Aside := fun m => .refl m

theorem aside_onStorage (f : Storage → α × Storage) : (onStorage f).Aside := fun _ => .of_exec rfl rfl rfl

theorem aside_modify {f : Machine → Machine} (h : ∀ m : Machine, m.Alike (f m)) : (modify f).Aside := fun m => h m

theorem aside_release (v : Value) : (release v).Aside := aside_modify fun _ => .of_exec rfl rfl rfl

theorem aside_pushOperand (v : Value) : (pushOperand v).Aside := by
  intro m
  rw [meets_pushOperand]
  split
  · exact .of_exec rfl rfl rfl
  · exact .refl m

theorem aside_pushControl (f : ControlFrame) : (pushControl f).Aside := by
  intro m
  rw [meets_pushControl]
  split
  · exact .of_exec rfl rfl rfl
  · exact .refl m

theorem aside_pushVariable (v : Variable) : (pushVariable v).Aside := by
  intro m
  rw [meets_pushVariable]
  split
  · exact .of_exec rfl rfl rfl
  · exact .refl m

theorem aside_truncateOperands (n : Nat) : (truncateOperands n).Aside := aside_modify fun _ => .of_exec rfl rfl rfl

theorem aside_pushAll (vs : List Value) : (pushAll vs).Aside := by
  induction vs with
  | nil => exact aside_pure ()
  | cons v vs ih => exact aside_bind (aside_pushOperand v) fun _ => ih

theorem aside_releasePrior (prior : Option Value) : (releasePrior prior).Aside := by
  cases prior with
  | none => exact aside_pure ()
  | some v => exact aside_release v

theorem aside_pushHidden (d : Definition) (index : Int) (mark : Marker) (prior : Option Value) :
    (pushHidden d index mark prior).Aside := by
  rw [pushHidden_eq]
  split
  · exact aside_bind (aside_releasePrior prior) fun _ => aside_pure _
  · exact aside_bind (aside_pushAll _) fun _ => aside_pure _

/-! ## Natives -/

/-- A native's own evaluation changes, but not which block's it is. -/
theorem aside_mapEval {f : EvalState → EvalState} (hf : ∀ e, (f e).block = e.block) :
    (mapExec (Exec.mapEval f)).Aside := by
  refine aside_modify fun m => ⟨rfl, rfl, ?_⟩
  simp only [Machine.busy, Exec.mapEval, Option.map_map]
  exact congrArg (fun g => m.exec.eval.map g) (funext hf)

theorem aside_skipBody : skipBody.Aside := by
  intro m
  unfold Meets skipBody
  split
  · exact .refl m
  · rename_i e he
    split
    · refine ⟨rfl, rfl, ?_⟩
      simp only [Machine.busy, he]
      rfl
    · exact .refl m

theorem aside_fail (x : Error) : (fail x).Aside := aside_mapEval fun _ => rfl

theorem aside_assign (name : Text) (v : Value) : (assign name v).Aside := by
  intro m
  unfold Meets assign
  split
  · exact .refl m
  · exact .of_exec rfl rfl rfl

theorem aside_fetch (name : Text) : (fetch name).Aside := by
  refine aside_bind (aside_read _) fun x => ?_
  split
  · exact aside_pure _
  · exact aside_bind (aside_onStorage _) fun _ => aside_pure _

theorem aside_argument (i : Int) : (argument i).Aside := by
  refine aside_bind (aside_read _) fun fs => ?_
  split
  · exact aside_pure _
  · split
    · exact aside_onStorage _
    · exact aside_pure _

theorem aside_popData : popData.Aside := by
  intro m
  unfold Meets popData
  split
  · exact .of_exec rfl rfl rfl
  · exact .refl m

theorem aside_print (line : Text) : (print line).Aside := by
  intro m
  unfold Meets print
  split <;> exact .of_exec rfl rfl rfl

theorem aside_cancelRun (cause : CancelCause) : (cancelRun cause).Aside := by
  refine aside_modify fun m => ?_
  dsimp only
  split <;> exact .of_exec rfl rfl rfl

theorem aside_pause : pause.Aside := fun m => ⟨.refl m, fun _ hk => hk.alike⟩

/-- All that a native asks for, but the end of the invocation and calls. -/
theorem aside_answer (invoke : Invoker) {r : Request} (hf : ∀ v, r ≠ .finish v) (hc : ∀ c args, r ≠ .call c args) :
    (answer invoke r).Aside := by
  cases r with
  | skipBody => exact aside_skipBody
  | jumpTo i => exact aside_mapEval fun _ => rfl
  | finish v => exact absurd rfl (hf v)
  | fail x => exact aside_fail x
  | declare name v => exact aside_bind (aside_read _) fun _ => aside_pushVariable _
  | assign name v => exact aside_assign name v
  | fetch name => exact aside_fetch name
  | pushData v => exact aside_pushControl _
  | popData => exact aside_popData
  | argument i => exact aside_argument i
  | call c args => exact absurd rfl (hc c args)
  | print line => exact aside_print line
  | cancelRun cause => exact aside_cancelRun cause
  | pause => exact aside_pause
  | _ => exact fun _ => .of_exec rfl rfl rfl

/-! ## The walk -/

theorem aside_setLayer (depth layer : Nat) : (setLayer depth layer).Aside :=
  aside_modify fun m => ⟨rfl, m.exec.accounts_mapFrame depth (fun _ => rfl), by
    unfold Machine.busy Exec.mapFrame
    split <;> rfl⟩

theorem aside_openBody (depth i : Nat) (v : Value) : (openBody depth i v).Aside := by
  refine aside_bind (aside_pushControl _) fun _ => aside_bind (aside_read _) fun layer => ?_
  exact aside_bind (aside_setLayer depth _) fun _ => aside_pure _

theorem aside_popBody : popBody.Aside := by
  intro m
  unfold Meets popBody
  split
  · exact .of_exec rfl rfl rfl
  · exact .of_exec rfl rfl rfl
  · exact .refl m

theorem aside_takeBody (depth layer : Nat) : (takeBody depth layer).Aside := by
  refine aside_bind aside_popBody fun frame => aside_bind (aside_modify fun _ => .of_exec rfl rfl rfl) fun _ => ?_
  exact aside_bind (aside_setLayer depth _) fun _ => aside_pure _

theorem aside_blockAt (c : ChainId) (i : Nat) : (blockAt c i).Aside := by
  refine aside_bind (aside_read _) fun bs => ?_
  split
  · exact aside_pure _
  · exact aside_crash _

theorem aside_badJump (c : ChainId) (i : Nat) : (badJump c i).Aside :=
  aside_bind (aside_blockAt c i) fun _ => aside_bind (aside_read _) fun _ => aside_pure _

theorem aside_leave (c : ChainId) (depth : Nat) (cursor : Cursor) (position target : Nat) (v : Value) (skip : Bool) :
    (leave c depth cursor position target v skip).Aside := by
  refine aside_bind (aside_blockAt c position) fun b => aside_bind (aside_read _) fun d => ?_
  split
  · exact aside_bind (aside_openBody depth position v) fun _ => aside_pure _
  · exact aside_bind (aside_release v) fun _ => aside_pure _

theorem aside_passOver (depth : Nat) (cursor : Cursor) (t : BlockType) : (passOver depth cursor t).Aside := by
  unfold passOver
  dsimp only
  split
  · exact aside_bind (aside_openBody depth _ _) fun _ => aside_pure _
  · exact aside_pure _

end Work

end BlockEngine
