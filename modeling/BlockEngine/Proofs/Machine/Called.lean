/-
  BlockEngine.Proofs.Machine.Called — evaluating a call of a procedure.

  A call that is linked has its chain as the first operand, and whatever its arguments do, the chain
  stays below what they push (`pushCalled_meets`). So the code of the call runs that chain, on copies of
  the operands that follow (`callNative_call`). A call that is linked to no chain fails before anything
  is evaluated (`evaluateWith_unlinked`).
-/

import BlockEngine.Proofs.Machine.Scope
import BlockEngine.Registry.Procedure

namespace BlockEngine.Work

/-! ## Operands -/

theorem pushAll_meets (vs : List Value) (m : Machine) :
    (pushAll vs).Meets (fun _ k => k.exec.operands = vs.reverse ++ m.exec.operands ∧ k.program = m.program)
      (.all fun _ => True) m := by
  induction vs generalizing m with
  | nil => exact ⟨rfl, rfl⟩
  | cons v vs ih =>
    simp only [pushAll, meets_bind, meets_pushOperand]
    split
    · refine (ih _).weaken fun _ k hk => ⟨?_, hk.2⟩
      rw [hk.1, List.reverse_cons, List.append_assoc]
      rfl
    · trivial

def pushCalled (eval : Evaluator) (d : Definition) (c : ChainId) (b : BlockId) (index : Int) (mark : Marker)
    (bare : Bool) (prior : Option Value) : Work (Except Error Unit) := do
  pushAll (.ofChain (some c) :: ((if d.type.opens then [.ofMarker mark] else []) ++ prior.toList))
  pushDeclared eval d b index mark bare

/-- Unless a block calls a procedure that no chain defines, its operands are pushed in two goes. -/
theorem pushOperands_eq {d : Definition} (hlinked : ¬ (d.role = .call ∧ d.owner = none)) (eval : Evaluator)
    (b : BlockId) (index : Int) (mark : Marker) (bare : Bool) (prior : Option Value) :
    pushOperands eval d b index mark bare prior = (do
      pushAll (hidden d mark prior)
      pushDeclared eval d b index mark bare) := by
  rw [pushOperands, pushHidden_eq, if_neg hlinked, Work.bind_assoc]
  rfl

theorem linked_of_owner {d : Definition} {c : ChainId} (howner : d.owner = some c) :
    ¬ (d.role = .call ∧ d.owner = none) := by
  rw [howner]
  exact fun h => nomatch h.2

/-- The operands of a linked call are pushed on the chain. -/
theorem pushOperands_linked {d : Definition} (hcall : d.role = .call) {c : ChainId} (howner : d.owner = some c)
    (eval : Evaluator) (b : BlockId) (index : Int) (mark : Marker) (bare : Bool) (prior : Option Value) :
    pushOperands eval d b index mark bare prior = pushCalled eval d c b index mark bare prior := by
  have hhidden : hidden d mark prior = .ofChain (some c) ::
      ((if d.type.opens then [.ofMarker mark] else []) ++ prior.toList) := by
    unfold hidden
    rw [hcall, howner]
    rfl
  rw [pushOperands_eq (linked_of_owner howner), hhidden, pushCalled]

/-- Whatever the arguments do, the chain stays below what they push. -/
theorem pushCalled_meets {eval : Evaluator} (he : Settling eval) (d : Definition) (c : ChainId) (b : BlockId)
    (index : Int) (mark : Marker) (bare : Bool) (prior : Option Value) {m : Machine} (hc : m.exec.calls ≠ []) (hs : m.Scoped) :
    (pushCalled eval d c b index mark bare prior).Meets
      (fun _ k => ∃ vs, k.exec.operands = vs ++ .ofChain (some c) :: m.exec.operands) (.all fun _ => True) m := by
  rw [pushCalled, meets_bind]
  refine ((pushAll_growing _ m hc hs).both (pushAll_meets _ m)).mono ?_
    (fun _ _ _ => trivial) (fun _ _ => trivial) fun _ _ => trivial
  rintro - k ⟨hk, hoperands, -⟩
  refine (pushDeclared_growing he d b index mark bare k (hk.1.calls_ne hc) (hk.1.toScoped hc hs)).mono ?_
    (fun _ _ _ => trivial) (fun _ _ => trivial) fun _ _ => trivial
  rintro - l ⟨-, -, vs, hvs⟩
  rw [hoperands, List.reverse_cons, List.append_assoc, ← List.append_assoc] at hvs
  exact ⟨_, hvs.symm⟩

/-! ## Calls -/

theorem window_called {c : ChainId} {vs os : List Value} {m : Machine}
    (hm : m.exec.operands = vs ++ .ofChain (some c) :: os) :
    window os.length m = .done (.ofChain (some c) :: (vs.map m.storage.view).reverse) m := by
  have hm' : m.exec.operands = (vs ++ [.ofChain (some c)]) ++ os := by
    rw [hm, List.append_assoc, List.singleton_append]
  rw [window_append hm', List.map_append, List.reverse_append]
  rfl

/-- The code of a call that is given the chain first runs that chain. -/
theorem callNative_callProcedure {invoke : Invoker} {c : ChainId} (e : EvalState) (mark : Marker)
    {vs os : List Value} {m : Machine} (hm : m.exec.operands = vs ++ .ofChain (some c) :: os) :
    callNative invoke callProcedure e mark os.length m =
      callNative invoke (fun operands => Proc.call (some c) operands.tail) e mark os.length m := by
  unfold callNative
  rw [bind_apply, bind_apply, window_called hm]
  rfl

/-- What is left of a call once the chain has been run on copies of the arguments. -/
def afterCall (bound : List Value) (e : EvalState) (outer : Option EvalState) (base : Nat) (r : Except Error Value) :
    Work (Value × EvalState) := do
  modify fun m => { m with storage := m.storage.releaseAll bound }
  let v ← (match r with
    | .ok v => return v
    | .error x => do
      fail x
      return .nothing)
  let inner ← read (·.exec.eval)
  mapExec fun x => { x with eval := outer }
  truncateOperands base
  return (v, inner.getD e)

def calling (e : EvalState) (mark : Marker) (operands args : List Value) (m : Machine) : Machine :=
  { m with
    exec.eval := some e
    storage := (m.storage.copyAll args).2
    journal := ⟨e.block, e.index, mark, operands⟩ :: m.journal }

/-- A call runs its chain on copies of the operands above it. -/
theorem callNative_call {invoke : Invoker} {c : ChainId} (e : EvalState) (mark : Marker) {vs os : List Value}
    {m : Machine} (hm : m.exec.operands = vs ++ .ofChain (some c) :: os) :
    let args := (vs.map m.storage.view).reverse
    let bound := (m.storage.copyAll args).1
    callNative invoke callProcedure e mark os.length m =
      (invoke c bound >>= afterCall bound e m.exec.eval os.length)
        (calling e mark (.ofChain (some c) :: args) args m) := by
  intro args bound
  have hperform : perform invoke (callProcedure (.ofChain (some c) :: args)) = call invoke (some c) args :=
    bind_pure (call invoke (some c) args)
  unfold callNative
  rw [bind_apply, window_called hm]
  show (perform invoke (callProcedure (.ofChain (some c) :: args)) >>= _) _ = _
  rw [hperform]
  simp only [call, Work.bind_assoc]
  rfl

theorem afterCall_ok (bound : List Value) {e : EvalState} (outer : Option EvalState) {vs os : List Value} (v : Value)
    {m : Machine} (he : m.exec.eval = some e) (hm : m.exec.operands = vs ++ os) :
    ∃ k, afterCall bound e outer os.length (.ok v) m = .done (v, e) k ∧ k.journal = m.journal := by
  let k : Machine :=
    { m with exec.eval := outer, storage := m.storage.releaseAll bound }
  have hk : afterCall bound e outer os.length (.ok v) m =
      (truncateOperands os.length >>= fun _ => Pure.pure (v, m.exec.eval.getD e)) k := rfl
  rw [hk, he, bind_apply, truncateOperands_append (m := k) hm]
  exact ⟨_, rfl, rfl⟩

/-- An error of the chain becomes that of the call. -/
theorem afterCall_error (bound : List Value) {e : EvalState} (outer : Option EvalState) {vs os : List Value} (x : Error)
    {m : Machine} (he : m.exec.eval = some e) (hm : m.exec.operands = vs ++ os) :
    ∃ k, afterCall bound e outer os.length (.error x) m =
      .done (.nothing, { e with error := some (e.error.getD x) }) k ∧ k.journal = m.journal := by
  let k : Machine :=
    { m with exec.eval := outer, storage := m.storage.releaseAll bound }
  have hk : afterCall bound e outer os.length (.error x) m =
      (truncateOperands os.length >>= fun _ =>
        Pure.pure (.nothing, (m.exec.eval.map fun e => { e with error := some (e.error.getD x) }).getD e)) k := rfl
  rw [hk, he, bind_apply, truncateOperands_append (m := k) hm]
  exact ⟨_, rfl, rfl⟩

/-! ## Blocks that fail at once -/

section

variable {b : BlockId} {m : Machine} (index : Int) (mark : Marker) (bare : Bool) (prior : Option Value)

theorem releasePrior_apply (m : Machine) :
    releasePrior prior m = .done () { m with storage := prior.elim id Storage.release m.storage } := by
  cases prior <;> rfl

/-- A block without code fails before anything is evaluated. -/
theorem evaluateWith_noNative (hnative : (m.program.kindOf b).native = none) (eval : Evaluator) (invoke : Invoker) :
    evaluateWith eval invoke b index mark bare prior m =
      .done (.error (.inBlock (m.program.kindOf b).id index .noNative))
        { m with storage := prior.elim id Storage.release m.storage } := by
  simp only [evaluateWith, kindOf, bind_apply, read, Outcome.bind, hnative, releasePrior_apply]
  rfl

/-- A call that is linked to no chain fails before anything is evaluated. -/
theorem evaluateWith_unlinked {native : Native} (hcall : (m.program.kindOf b).role = .call)
    (hnative : (m.program.kindOf b).native = some native) (howner : (m.program.kindOf b).owner = none)
    (eval : Evaluator) (invoke : Invoker) :
    evaluateWith eval invoke b index mark bare prior m =
      .done (.error (.inBlock (m.program.kindOf b).id index .unlinked))
        { m with storage := (prior.elim id Storage.release) m.storage } := by
  have hpush : pushOperands eval (m.program.kindOf b) b index mark bare prior = (do
      releasePrior prior
      return .error (.inBlock (m.program.kindOf b).id index .unlinked)) := by
    rw [pushOperands, pushHidden_eq, if_pos ⟨hcall, howner⟩, Work.bind_assoc]
    rfl
  let k : Machine := { m with storage := prior.elim id Storage.release m.storage }
  have hk : k.exec.operands = [] ++ m.exec.operands := rfl
  have hdropped := truncateOperands_append hk
  simp only [evaluateWith, kindOf, bind_apply, read, Outcome.bind, hnative]
  rw [hpush, bind_apply, releasePrior_apply]
  simp only [Outcome.bind, bind_apply, Pure.pure, Work.pure]
  rw [hdropped]
  rfl

end

end BlockEngine.Work
