/-
  BlockEngine.Proofs.Machine.Operands — the operands of an evaluation.

  The operands that no input declares are a list of values known from the kind of the block
  (`hidden`), and pushing them is pushing that list, unless the block calls a procedure that no
  chain defines (`pushHidden_eq`). What a native is called on is what was pushed above the base, as
  it is now (`window_append`). With code to call, an evaluation is made of three parts: pushing the
  operands, calling the native, and reporting (`evaluateWith_native`).
-/

import BlockEngine.Proofs.Machine.Meets

namespace BlockEngine.Work

/-- The operands that no input declares, the first pushed first. -/
def hidden (d : Definition) (mark : Marker) (prior : Option Value) : List Value :=
  (match d.role with
    | .parameter i => [.ofInt (Int64.ofNat i)]
    | _ => []) ++
  (if d.role = .call then [.ofChain d.owner] else []) ++
  (if d.type.opens then [.ofMarker mark] else []) ++ prior.toList

def pushAll : List Value → Work Unit
  | [] => return ()
  | v :: vs => do
    pushOperand v
    pushAll vs

theorem pushHidden_eq (d : Definition) (index : Int) (mark : Marker) (prior : Option Value) :
    pushHidden d index mark prior =
      if d.role = .call ∧ d.owner = none then do
        releasePrior prior
        return .error (.inBlock d.id index .unlinked)
      else do
        pushAll (hidden d mark prior)
        return .ok () := by
  unfold pushHidden hidden
  cases hr : d.role <;> cases ho : d.owner <;> cases d.type.opens <;> cases prior <;> simp [pushAll]

theorem window_append {vs os : List Value} {m : Machine} (h : m.exec.operands = vs ++ os) :
    window os.length m = .done ((vs.map m.storage.view).reverse) m := by
  simp [window, read, h]

theorem truncateOperands_append {vs os : List Value} {m : Machine} (h : m.exec.operands = vs ++ os) :
    truncateOperands os.length m =
      .done () { m with exec.operands := os, storage := m.storage.releaseAll vs } := by
  simp [truncateOperands, modify, h]

theorem slotCount_eq {m : Machine} {b : BlockId} {x : Block} (hx : m.program.blocks[b]? = some x) :
    slotCount b m = .done x.slots.length m := by
  simp only [slotCount, read, hx]

/-- No arguments are declared, or none are asked for. -/
theorem pushDeclared_none {m : Machine} {b : BlockId} {x : Block} (hx : m.program.blocks[b]? = some x) {mark : Marker}
    {bare : Bool} (h : (bare || mark == .closing) = true ∨ x.slots = []) (eval : Evaluator) (d : Definition)
    (index : Int) : pushDeclared eval d b index mark bare m = .done (.ok ()) m := by
  unfold pushDeclared
  split
  · rfl
  · rename_i hasked
    rw [bind_apply, slotCount_eq hx, h.resolve_left hasked]
    rfl

/-! ## Evaluations in parts -/

def report (d : Definition) (index : Int) (r : Value × EvalState) : Work (Except Error (Value × Asked)) :=
  match r.2.error with
  | some x => do
    release r.1
    return .error (x.blame d.id index)
  | none => return .ok (r.1, ⟨if 0 ≤ index then r.2.jump else none, r.2.skip⟩)

/-- Evaluating a block is pushing its operands, calling its native, and reporting. -/
theorem evaluateWith_native {m : Machine} {b : BlockId} {f : Native} (hf : (m.program.kindOf b).native = some f)
    (eval : Evaluator) (invoke : Invoker) (index : Int) (mark : Marker) (bare : Bool) (prior : Option Value) :
    evaluateWith eval invoke b index mark bare prior m =
      (pushOperands eval (m.program.kindOf b) b index mark bare prior >>= fun
        | .error e => do
          truncateOperands m.exec.operands.length
          return .error e
        | .ok () =>
          callNative invoke f
            { block := b, index, canSkip := decide (0 ≤ index) && (m.program.kindOf b).type.opens && mark == .opening }
            mark m.exec.operands.length >>= report (m.program.kindOf b) index) m := by
  simp only [evaluateWith, kindOf, bind_apply, read, Outcome.bind, hf]
  refine congrArg _ (funext fun r => funext fun k => ?_)
  cases r with
  | error e => rfl
  | ok u =>
    refine congrArg (fun w : Work _ => w k) (bind_congr fun r => ?_)
    unfold report
    rfl

end BlockEngine.Work
