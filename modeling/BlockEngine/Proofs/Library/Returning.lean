/-
  BlockEngine.Proofs.Library.Returning — which standard blocks end an invocation.

  A native goes on if it never asks to end the invocation that its block stands in. Nothing is asked of
  the operands, nor of what is answered to its other requests.

  Proved: of the standard blocks, calls and placeholders all go on but the return block
  (`goesOn_of_standard`, `returnBlock_of_standard`).
-/

import BlockEngine.Proofs.Library.Conduct

namespace BlockEngine

namespace Proc

variable {α β : Type}

def GoesOn : Proc α → Prop
  | .done _ => True
  | .crash _ => True
  | .ask r go => (∀ v, r ≠ .finish v) ∧ ∀ reply, (go reply).GoesOn

theorem GoesOn.bind {p : Proc α} {f : α → Proc β} (hp : p.GoesOn) (hf : ∀ a, (f a).GoesOn) : (p >>= f).GoesOn := by
  induction p with
  | done a => exact hf a
  | crash x => trivial
  | ask r go ih => exact ⟨hp.1, fun reply => ih reply (hp.2 reply)⟩

/-- A single request that is none for the end. -/
theorem goesOn_ask {r : Request} (h : ∀ v, r ≠ .finish v) : (ask r .done).GoesOn := ⟨h, fun _ => trivial⟩

theorem goesOn_operand (args : List Value) (i : Nat) : (operand args i).GoesOn := by
  unfold operand
  split <;> trivial

theorem goesOn_marker (v : Value) : (marker v).GoesOn := by
  unfold marker
  split <;> trivial

end Proc

def Native.GoesOn (f : Native) : Prop := ∀ args, (f args).GoesOn

/-! ## The standard natives -/

namespace Library

open Proc

theorem goesOn_skipWith (v : Value) : (skipWith v).GoesOn := GoesOn.bind (goesOn_ask nofun) fun _ => trivial

theorem goesOn_again : again.GoesOn := GoesOn.bind (goesOn_ask nofun) fun _ => goesOn_ask nofun

/-- What is done as the marker says that is the first operand. -/
theorem goesOn_marked {args : List Value} {f : Marker → Proc Value} (hc : (f .closing).GoesOn)
    (ho : (f .opening).GoesOn) :
    (do
      let m ← marker (← operand args 0)
      f m).GoesOn := by
  refine (goesOn_operand args 0).bind fun v => (goesOn_marker v).bind fun mark => ?_
  cases mark with
  | closing => exact hc
  | opening => exact ho

theorem nop_goesOn : Native.GoesOn nop := fun _ => trivial

theorem print_goesOn : Native.GoesOn printBlock := by
  intro args
  refine (goesOn_operand args 0).bind fun v => GoesOn.bind (goesOn_ask nofun) fun e => ?_
  cases e with
  | none => trivial
  | some x => exact GoesOn.bind (goesOn_ask nofun) fun _ => trivial

theorem declare_goesOn : Native.GoesOn declareBlock := by
  intro args
  refine (goesOn_operand args 0).bind fun name => (goesOn_operand args 1).bind fun v => ?_
  exact GoesOn.bind (goesOn_ask nofun) fun v => GoesOn.bind (goesOn_ask nofun) fun _ => trivial

theorem set_goesOn : Native.GoesOn setBlock := by
  intro args
  refine (goesOn_operand args 0).bind fun name => (goesOn_operand args 1).bind fun v => ?_
  refine GoesOn.bind (goesOn_ask nofun) fun v => GoesOn.bind (goesOn_ask nofun) fun ok => ?_
  cases ok with
  | true => trivial
  | false => exact GoesOn.bind (goesOn_ask nofun) fun _ => GoesOn.bind (goesOn_ask nofun) fun _ => trivial

theorem get_goesOn : Native.GoesOn getBlock := by
  intro args
  refine (goesOn_operand args 0).bind fun name => GoesOn.bind (goesOn_ask nofun) fun v => ?_
  cases v with
  | none => exact GoesOn.bind (goesOn_ask nofun) fun _ => trivial
  | some v => trivial

/-- Natives that compute a value of two operands. -/
theorem binary_goesOn (f : Value → Value → Value) : Native.GoesOn fun args => do
    let a ← operand args 0
    let b ← operand args 1
    return f a b :=
  fun args => (goesOn_operand args 0).bind fun _ => (goesOn_operand args 1).bind fun _ => trivial

theorem compare_goesOn : Native.GoesOn compareBlock := by
  intro args
  refine (goesOn_operand args 0).bind fun a => (goesOn_operand args 2).bind fun b => ?_
  refine (goesOn_operand args 1).bind fun symbol => ?_
  dsimp only
  split
  · trivial
  · split
    · trivial
    · split
      · trivial
      · exact GoesOn.bind (goesOn_ask nofun) fun _ => trivial

theorem if_goesOn : Native.GoesOn ifBlock := by
  intro args
  refine goesOn_marked ?_ ?_
  · refine (goesOn_operand args 1).bind fun v => ?_
    split <;> trivial
  · dsimp only
    split
    · trivial
    · exact goesOn_skipWith _

theorem elseIf_goesOn : Native.GoesOn elseIfBlock := by
  intro args
  refine (goesOn_operand args 1).bind fun prior => goesOn_marked ?_ ?_
  · dsimp only
    split <;> trivial
  · dsimp only
    split
    · exact goesOn_skipWith _
    · split
      · trivial
      · exact goesOn_skipWith _

theorem else_goesOn : Native.GoesOn elseBlock := by
  intro args
  refine (goesOn_operand args 1).bind fun prior => goesOn_marked ?_ ?_
  · dsimp only
    split <;> trivial
  · dsimp only
    split
    · exact goesOn_skipWith _
    · trivial

theorem loop_goesOn : Native.GoesOn loopBlock :=
  fun _ => goesOn_marked (goesOn_again.bind fun _ => trivial) trivial

theorem while_goesOn : Native.GoesOn whileBlock := by
  intro args
  refine goesOn_marked ?_ ?_
  · refine (goesOn_operand args 1).bind fun v => ?_
    split
    · exact goesOn_again.bind fun _ => trivial
    · trivial
  · dsimp only
    split
    · trivial
    · exact goesOn_skipWith _

theorem repeat_goesOn : Native.GoesOn repeatBlock := by
  intro args
  refine goesOn_marked ?_ ?_
  · refine (goesOn_operand args 1).bind fun v => ?_
    split
    · refine GoesOn.bind (goesOn_ask nofun) fun left => ?_
      dsimp only
      split
      · exact GoesOn.bind (goesOn_ask nofun) fun _ => goesOn_again.bind fun _ => trivial
      · trivial
    · trivial
  · dsimp only
    split
    · trivial
    · split
      · exact goesOn_skipWith _
      · exact GoesOn.bind (goesOn_ask nofun) fun _ => trivial

end Library

theorem callProcedure_goesOn : Native.GoesOn callProcedure := by
  intro args
  cases args with
  | nil => exact Proc.GoesOn.bind (Proc.goesOn_ask nofun) fun _ => trivial
  | cons c args => exact Proc.goesOn_ask nofun

theorem parameterValue_goesOn : Native.GoesOn parameterValue := by
  intro args
  cases args with
  | nil => trivial
  | cons i args => exact Proc.goesOn_ask nofun

/-! ## Standard kinds -/

namespace Definition

variable {d : Definition}

/-- Blocks of the kind return from the invocation. A procedure may have any name, that of the return block
    too. -/
def isReturn (d : Definition) : Bool := d.role == .plain && d.id == ("return" : Text)

/-- The only standard block with the id is the return block, and no other ends an invocation. -/
theorem library_goesOn : ∀ s ∈ Library.standard,
    (s.id = ("return" : Text) ∧ s.native = some Library.returnBlock ∧ s.arity = 1) ∨
      (s.id ≠ ("return" : Text) ∧ ∃ f, s.native = some f ∧ Native.GoesOn f) := by
  intro s hs
  simp only [Library.standard, List.mem_cons, List.not_mem_nil, or_false] at hs
  rcases hs with rfl | rfl | rfl | rfl | rfl | rfl | rfl | rfl | rfl | rfl | rfl | rfl | rfl | rfl | rfl | rfl |
    rfl | rfl | rfl
  · exact .inr ⟨by decide, _, rfl, Library.nop_goesOn⟩
  · exact .inr ⟨by decide, _, rfl, Library.nop_goesOn⟩
  · exact .inr ⟨by decide, _, rfl, Library.nop_goesOn⟩
  · exact .inl ⟨rfl, rfl, rfl⟩
  · exact .inr ⟨by decide, _, rfl, Library.if_goesOn⟩
  · exact .inr ⟨by decide, _, rfl, Library.elseIf_goesOn⟩
  · exact .inr ⟨by decide, _, rfl, Library.else_goesOn⟩
  · exact .inr ⟨by decide, _, rfl, Library.loop_goesOn⟩
  · exact .inr ⟨by decide, _, rfl, Library.repeat_goesOn⟩
  · exact .inr ⟨by decide, _, rfl, Library.while_goesOn⟩
  · exact .inr ⟨by decide, _, rfl, Library.print_goesOn⟩
  · exact .inr ⟨by decide, _, rfl, Library.declare_goesOn⟩
  · exact .inr ⟨by decide, _, rfl, Library.set_goesOn⟩
  · exact .inr ⟨by decide, _, rfl, Library.get_goesOn⟩
  · exact .inr ⟨by decide, _, rfl, Library.binary_goesOn _⟩
  · exact .inr ⟨by decide, _, rfl, Library.binary_goesOn _⟩
  · exact .inr ⟨by decide, _, rfl, Library.binary_goesOn _⟩
  · exact .inr ⟨by decide, _, rfl, Library.binary_goesOn _⟩
  · exact .inr ⟨by decide, _, rfl, Library.compare_goesOn⟩

/-- All standard blocks, calls and placeholders go on but the return block. -/
theorem goesOn_of_standard (h : d.IsStandard) (hd : d.isReturn = false) {f : Native} (hf : d.native = some f) :
    Native.GoesOn f := by
  cases h with
  | call ht hr hn =>
    cases hf.symm.trans hn
    exact callProcedure_goesOn
  | parameter i ht hr hn =>
    cases hf.symm.trans hn
    exact parameterValue_goesOn
  | library s hs he =>
    have hplain : s.role = .plain := (by decide : ∀ s ∈ Library.standard, s.role = .plain) s hs
    have hrole : d.role = .plain := by rw [he]; exact hplain
    have hid : d.id = s.id := by rw [he]
    have hn : d.native = s.native := by rw [he]
    rcases library_goesOn s hs with ⟨hs, -⟩ | ⟨-, g, hg, hgo⟩
    · rw [isReturn, hrole, hid, hs] at hd
      exact absurd hd (by decide)
    · cases hf.symm.trans (hn.trans hg)
      exact hgo

/-- The return block is what it is in the library. -/
theorem returnBlock_of_standard (h : d.IsStandard) (hd : d.isReturn = true) :
    d.native = some Library.returnBlock ∧ d.arity = 1 := by
  simp only [isReturn, Bool.and_eq_true, beq_iff_eq] at hd
  cases h with
  | call ht hr hn => exact absurd (hd.1.symm.trans hr) nofun
  | parameter i ht hr hn => exact absurd (hd.1.symm.trans hr) nofun
  | library s hs he =>
    have hid : d.id = s.id := by rw [he]
    have hn : d.native = s.native := by rw [he]
    have ha : d.arity = s.arity := by rw [he]; rfl
    rcases library_goesOn s hs with ⟨-, hg, hs⟩ | ⟨hs, -⟩
    · exact ⟨hn.trans hg, ha.trans hs⟩
    · exact absurd (hid.symm.trans hd.2) hs

end Definition

end BlockEngine
