/-
  BlockEngine.Proofs.Library.Honest — standard natives make up no cells.

  Standard natives compute scalars, hand on what they were given or told, and free nothing but a copy that they
  asked for themselves (`setBlock`, where the variable is unknown).

  Proved: the natives of standard blocks, of calls and of placeholders are honest (`honest_of_standard`), and so
  is every program of such kinds (`Program.honest_of_standard`).
-/

import BlockEngine.Proofs.Library.Conduct
import BlockEngine.Proofs.Machine.Grounding

namespace BlockEngine

namespace Proc

variable {α β : Type} {n : Cell}

theorem honest_bind {Q : Cell → β → Prop} {p : Proc α} {f : α → Proc β} :
    (p >>= f).Honest n Q ↔ p.Honest n fun k a => (f a).Honest k Q := by
  induction p generalizing n with
  | done a => exact Iff.rfl
  | crash x => exact Iff.rfl
  | ask r go ih =>
    exact and_congr_right fun _ => forall_congr' fun k => forall_congr' fun reply =>
      imp_congr_right fun _ => imp_congr_right fun _ => ih reply

section

variable {Q : Cell → Value → Prop}

theorem honest_operand {args : List Value} (hargs : ∀ v ∈ args, v.StoredBelow n) (i : Nat)
    (h : ∀ v, v.StoredBelow n → Q n v) : (operand args i).Honest n Q := by
  unfold operand
  cases hv : args[i]? with
  | none => trivial
  | some v => exact h v (hargs v (List.mem_of_getElem? hv))

/-- Whatever is yielded of no list is stored nowhere. -/
theorem honest_scalar (o : Ownership) (x : Scalar) :
    (Pure.pure (.scalar o x) : Proc Value).Honest n fun k v => v.StoredBelow k := Value.storedBelow_scalar n o x

end

theorem honest_marker {Q : Cell → Marker → Prop} (v : Value) (h : ∀ mark, Q n mark) : (marker v).Honest n Q := by
  unfold marker
  cases v.marker? with
  | none => trivial
  | some mark => exact h mark

/-- A request is honest about values that are known. -/
theorem honest_ask {r : Request} {Q : Cell → r.Reply → Prop} (hr : ∀ v ∈ r.values, v.StoredBelow n)
    (h : ∀ k reply, n ≤ k → (∀ v ∈ r.told reply, v.StoredBelow k) → Q k reply) : (Proc.ask r .done).Honest n Q :=
  ⟨hr, h⟩

theorem honest_silent {r : Request} {Q : Cell → r.Reply → Prop} (hr : r.values = [])
    (h : ∀ k reply, n ≤ k → (∀ v ∈ r.told reply, v.StoredBelow k) → Q k reply) : (Proc.ask r .done).Honest n Q :=
  honest_ask (hr ▸ List.forall_mem_nil _) h

end Proc

open Proc

/-! ## Plain natives -/

namespace Library

theorem nop_honest : Native.Honest nop := fun _ _ _ => honest_scalar _ _

theorem print_honest : Native.Honest printBlock := by
  intro n args hargs
  simp only [printBlock, honest_bind]
  refine honest_operand hargs 0 fun v _ => honest_silent rfl fun k e _ _ => ?_
  cases e with
  | none => exact honest_scalar _ _
  | some x => exact honest_bind.mpr (honest_silent rfl fun _ _ _ _ => honest_scalar _ _)

theorem return_honest : Native.Honest returnBlock := by
  intro n args hargs
  simp only [returnBlock, honest_bind]
  refine honest_operand hargs 0 fun v hv => honest_ask (List.forall_mem_singleton.mpr hv) fun k w _ hw => ?_
  exact honest_ask hw fun _ _ _ _ => honest_scalar _ _

theorem declare_honest : Native.Honest declareBlock := by
  intro n args hargs
  simp only [declareBlock, honest_bind]
  refine honest_operand hargs 0 fun name _ => honest_operand hargs 1 fun v hv =>
    honest_ask (List.forall_mem_singleton.mpr hv) fun k w _ hw => ?_
  exact honest_ask hw fun _ _ _ _ => honest_scalar _ _

theorem set_honest : Native.Honest setBlock := by
  intro n args hargs
  simp only [setBlock, honest_bind]
  refine honest_operand hargs 0 fun name _ => honest_operand hargs 1 fun v hv =>
    honest_ask (List.forall_mem_singleton.mpr hv) fun k w _ hw => honest_ask hw fun k' ok hle _ => ?_
  cases ok with
  | true => exact honest_scalar _ _
  | false =>
    refine honest_bind.mpr (honest_ask (List.forall_mem_singleton.mpr ?_) fun _ _ _ _ =>
      honest_bind.mpr (honest_silent rfl fun _ _ _ _ => honest_scalar _ _))
    exact (hw w List.mem_cons_self).mono hle

theorem get_honest : Native.Honest getBlock := by
  intro n args hargs
  simp only [getBlock, honest_bind]
  refine honest_operand hargs 0 fun name _ => honest_silent rfl fun k v _ hv => ?_
  cases v with
  | none => exact honest_bind.mpr (honest_silent rfl fun _ _ _ _ => honest_scalar _ _)
  | some w => exact hv w List.mem_cons_self

/-- Natives that compute a scalar of two operands. -/
theorem binary_honest {f : Value → Value → Value} (hf : ∀ a b, (f a b).IsScalar) : Native.Honest fun args => do
    let a ← operand args 0
    let b ← operand args 1
    return f a b := by
  intro n args hargs
  simp only [honest_bind]
  refine honest_operand hargs 0 fun a _ => honest_operand hargs 1 fun b _ => ?_
  show (f a b).StoredBelow n
  have hscalar := hf a b
  cases hv : f a b with
  | scalar o x => exact Value.storedBelow_scalar n o x
  | list o c items =>
    rw [hv] at hscalar
    cases hscalar

theorem compare_honest : Native.Honest compareBlock := by
  intro n args hargs
  simp only [compareBlock, honest_bind]
  refine honest_operand hargs 0 fun a _ => honest_operand hargs 2 fun b _ => honest_operand hargs 1 fun _ _ => ?_
  repeat' split
  · exact honest_scalar _ _
  · exact honest_scalar _ _
  · exact honest_scalar _ _
  · exact honest_bind.mpr (honest_silent rfl fun _ _ _ _ => honest_scalar _ _)

/-! ## Control natives -/

theorem honest_skipWith {n : Cell} (o : Ownership) (x : Scalar) :
    (skipWith (.scalar o x)).Honest n fun k v => v.StoredBelow k :=
  honest_bind.mpr (honest_silent rfl fun _ _ _ _ => honest_scalar _ _)

theorem honest_again {n : Cell} {Q : Cell → Unit → Prop} (h : ∀ k, Q k ()) : again.Honest n Q :=
  honest_bind.mpr (honest_silent rfl fun _ _ _ _ => honest_silent rfl fun k _ _ _ => h k)

theorem if_honest : Native.Honest ifBlock := by
  intro n args hargs
  simp only [ifBlock, honest_bind]
  refine honest_operand hargs 0 fun v _ => honest_marker v fun mark => ?_
  cases mark with
  | closing =>
    refine honest_bind.mpr (honest_operand hargs 1 fun w _ => ?_)
    split <;> exact honest_scalar _ _
  | opening =>
    dsimp only
    split
    · exact honest_scalar _ _
    · exact honest_skipWith _ _

theorem elseIf_honest : Native.Honest elseIfBlock := by
  intro n args hargs
  simp only [elseIfBlock, honest_bind]
  refine honest_operand hargs 1 fun prior _ => honest_operand hargs 0 fun v _ => honest_marker v fun mark => ?_
  cases mark with
  | closing =>
    dsimp only
    split <;> exact honest_scalar _ _
  | opening =>
    dsimp only
    split
    · exact honest_skipWith _ _
    · split
      · exact honest_scalar _ _
      · exact honest_skipWith _ _

theorem else_honest : Native.Honest elseBlock := by
  intro n args hargs
  simp only [elseBlock, honest_bind]
  refine honest_operand hargs 1 fun prior _ => honest_operand hargs 0 fun v _ => honest_marker v fun mark => ?_
  cases mark with
  | closing =>
    dsimp only
    split <;> exact honest_scalar _ _
  | opening =>
    dsimp only
    split
    · exact honest_skipWith _ _
    · exact honest_scalar _ _

theorem loop_honest : Native.Honest loopBlock := by
  intro n args hargs
  simp only [loopBlock, honest_bind]
  refine honest_operand hargs 0 fun v _ => honest_marker v fun mark => ?_
  cases mark with
  | closing => exact honest_bind.mpr (honest_again fun _ => honest_scalar _ _)
  | opening => exact honest_scalar _ _

theorem while_honest : Native.Honest whileBlock := by
  intro n args hargs
  simp only [whileBlock, honest_bind]
  refine honest_operand hargs 0 fun v _ => honest_marker v fun mark => ?_
  cases mark with
  | closing =>
    refine honest_bind.mpr (honest_operand hargs 1 fun w _ => ?_)
    split
    · exact honest_bind.mpr (honest_again fun _ => honest_scalar _ _)
    · exact honest_scalar _ _
  | opening =>
    dsimp only
    split
    · exact honest_scalar _ _
    · exact honest_skipWith _ _

theorem repeat_honest : Native.Honest repeatBlock := by
  have hkeep : ∀ {n : Cell} (o : Ownership) (x : Scalar), ∀ v ∈ (Request.pushData (.scalar o x)).values,
      v.StoredBelow n := fun o x => List.forall_mem_singleton.mpr (Value.storedBelow_scalar _ o x)
  intro n args hargs
  simp only [repeatBlock, honest_bind]
  refine honest_operand hargs 0 fun v _ => honest_marker v fun mark => ?_
  cases mark with
  | closing =>
    refine honest_bind.mpr (honest_operand hargs 1 fun w _ => ?_)
    split
    · refine honest_bind.mpr (honest_silent rfl fun _ left _ _ => ?_)
      split
      · exact honest_bind.mpr (honest_ask (hkeep _ _) fun _ _ _ _ =>
          honest_bind.mpr (honest_again fun _ => honest_scalar _ _))
      · exact honest_scalar _ _
    · exact honest_scalar _ _
  | opening =>
    dsimp only
    split
    · exact honest_scalar _ _
    · split
      · exact honest_skipWith _ _
      · exact honest_bind.mpr (honest_ask (hkeep _ _) fun _ _ _ _ => honest_scalar _ _)

end Library

/-! ## Standard kinds -/

theorem parameter_honest : Native.Honest parameterValue := by
  intro n args _
  cases args with
  | nil => exact honest_scalar _ _
  | cons v vs => exact honest_silent rfl fun _ w _ hw => hw w List.mem_cons_self

theorem call_honest : Native.Honest callProcedure := by
  intro n args hargs
  cases args with
  | nil => exact honest_bind.mpr (honest_silent rfl fun _ _ _ _ => honest_scalar _ _)
  | cons c vs =>
    exact honest_ask (fun v hv => hargs v (List.mem_cons_of_mem c hv)) fun _ w _ hw => hw w List.mem_cons_self

/-- The natives of standard blocks, of calls and of placeholders are honest. -/
theorem Definition.honest_of_standard {d : Definition} (h : d.IsStandard) : ∀ f ∈ d.native, Native.Honest f := by
  have hsome : ∀ {f : Native}, d.native = some f → f.Honest → ∀ g ∈ d.native, Native.Honest g := by
    rintro f hd hf g hg
    rw [hd] at hg
    exact Option.some.inj hg ▸ hf
  cases h with
  | call ht hr hn => exact hsome hn call_honest
  | parameter i ht hr hn => exact hsome hn parameter_honest
  | library s hs hd =>
    have hn : d.native = s.native := by rw [hd]
    clear hd
    simp only [Library.standard, List.mem_cons, List.not_mem_nil, or_false] at hs
    rcases hs with rfl | rfl | rfl | rfl | rfl | rfl | rfl | rfl | rfl | rfl | rfl | rfl | rfl | rfl | rfl | rfl |
      rfl | rfl | rfl
    · exact hsome hn Library.nop_honest
    · exact hsome hn Library.nop_honest
    · exact hsome hn Library.nop_honest
    · exact hsome hn Library.return_honest
    · exact hsome hn Library.if_honest
    · exact hsome hn Library.elseIf_honest
    · exact hsome hn Library.else_honest
    · exact hsome hn Library.loop_honest
    · exact hsome hn Library.repeat_honest
    · exact hsome hn Library.while_honest
    · exact hsome hn Library.print_honest
    · exact hsome hn Library.declare_honest
    · exact hsome hn Library.set_honest
    · exact hsome hn Library.get_honest
    · refine hsome hn (Library.binary_honest fun a b => ?_)
      unfold Library.sum
      split <;> trivial
    · exact hsome hn (Library.binary_honest fun _ _ => trivial)
    · exact hsome hn (Library.binary_honest fun _ _ => trivial)
    · exact hsome hn (Library.binary_honest fun _ _ => trivial)
    · exact hsome hn Library.compare_honest

/-- A program is honest whose blocks are standard blocks, calls and placeholders, or have no native. -/
theorem Program.honest_of_standard {p : Program}
    (h : ∀ b, (p.kindOf b).native = none ∨ (p.kindOf b).IsStandard) : p.Honest := by
  intro b native hnative
  rcases h b with hnone | hstandard
  · rw [hnone] at hnative
    cases hnative
  · exact Definition.honest_of_standard hstandard native hnative

end BlockEngine
