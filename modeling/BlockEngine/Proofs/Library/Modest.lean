/-
  BlockEngine.Proofs.Library.Modest — what the standard natives do not do.

  A modest native runs no chain and does not wait, jumps nowhere but to its own block, and fails with
  nothing that names a block or stands for a cancellation. Unlike in Conduct, nothing is asked of how it
  is entered, and it may break down.

  Proved: the natives of the standard blocks and of placeholders are modest on any operands
  (`modest_of_standard`), and what one does to its own evaluation is no more than that
  (`perform_modest`).
-/

import BlockEngine.Proofs.Library.Conduct
import BlockEngine.Proofs.Machine.Errors

namespace BlockEngine

def Error.IsBare (e : Error) : Prop := e.site? = none ∧ e.isCancellation = false

instance (e : Error) : Decidable e.IsBare := inferInstanceAs (Decidable (_ ∧ _))

namespace Error.IsBare

variable {e : Error} (h : e.IsBare)
include h

theorem blame_eq (id : Text) (position : Int) : e.blame id position = .inBlock id position e := by
  rw [blame, h.1, h.2]
  rfl

theorem root_eq : e.root = e := by
  cases e with
  | inBlock id position cause => cases h.1
  | _ => rfl

end Error.IsBare

namespace Proc

variable {α β : Type} {i : Int}

/-- The request is modest, and so is what is done with every reply that may come. -/
def Defers (i : Int) : (r : Request) → (r.Reply → Prop) → Prop
  | .jumpTo j, k => j = i ∧ k ()
  | .fail e, k => e.IsBare ∧ k ()
  | .glimpse, k => ∀ g : Glimpse, g.index = i → k g
  | .print _, k => ∀ e : Option Error, (∀ x ∈ e, x.IsBare) → k e
  | .call .., _ => False
  | .pause, _ => False
  | _, k => ∀ reply, k reply

/-- At a position, the procedure makes none but modest requests, and ends well unless it breaks down. -/
def Modest (i : Int) (Q : α → Prop) : Proc α → Prop
  | .done a => Q a
  | .crash _ => True
  | .ask r go => Defers i r fun reply => (go reply).Modest i Q

theorem defers_mono {r : Request} {k k' : r.Reply → Prop} (h : ∀ a, k a → k' a) (hk : Defers i r k) :
    Defers i r k' := by
  cases r with
  | jumpTo j => exact ⟨hk.1, h _ hk.2⟩
  | fail e => exact ⟨hk.1, h _ hk.2⟩
  | glimpse => exact fun g hg => h _ (hk g hg)
  | print line => exact fun e he => h _ (hk e he)
  | call c args => exact hk.elim
  | pause => exact hk.elim
  | _ => exact fun reply => h _ (hk reply)

@[simp] theorem modest_bind {Q : β → Prop} (p : Proc α) (f : α → Proc β) :
    (p >>= f).Modest i Q ↔ p.Modest i fun a => (f a).Modest i Q := by
  induction p with
  | done a => exact Iff.rfl
  | crash x => exact Iff.rfl
  | ask r go ih => exact ⟨defers_mono fun a => (ih a).mp, defers_mono fun a => (ih a).mpr⟩

@[simp] theorem modest_pure {Q : α → Prop} (a : α) : (Pure.pure a : Proc α).Modest i Q ↔ Q a := Iff.rfl

@[simp] theorem modest_operand {Q : Value → Prop} (args : List Value) (j : Nat) :
    (operand args j).Modest i Q ↔ ∀ v, args[j]? = some v → Q v := by
  unfold operand
  cases args[j]? with
  | none => exact ⟨fun _ _ h => (nomatch h), fun _ => trivial⟩
  | some v => exact ⟨fun h _ e => Option.some.inj e ▸ h, fun h => h v rfl⟩

@[simp] theorem modest_marker {Q : Marker → Prop} (v : Value) :
    (marker v).Modest i Q ↔ ∀ m, v.marker? = some m → Q m := by
  unfold marker
  cases v.marker? with
  | none => exact ⟨fun _ _ h => (nomatch h), fun _ => trivial⟩
  | some m => exact ⟨fun h _ e => Option.some.inj e ▸ h, fun h => h m rfl⟩

section

variable {Q : Unit → Prop}

@[simp] theorem modest_skipBody : skipBody.Modest i Q ↔ Q () := ⟨fun h => h (), fun h _ => h⟩
@[simp] theorem modest_jumpTo (j : Int) : (jumpTo j).Modest i Q ↔ j = i ∧ Q () := Iff.rfl
@[simp] theorem modest_finish (v : Value) : (finish v).Modest i Q ↔ Q () := ⟨fun h => h (), fun h _ => h⟩
@[simp] theorem modest_fail (e : Error) : (fail e).Modest i Q ↔ e.IsBare ∧ Q () := Iff.rfl
@[simp] theorem modest_declare (name : Text) (v : Value) : (declare name v).Modest i Q ↔ Q () :=
  ⟨fun h => h (), fun h _ => h⟩
@[simp] theorem modest_pushData (v : Value) : (pushData v).Modest i Q ↔ Q () := ⟨fun h => h (), fun h _ => h⟩
@[simp] theorem modest_free (v : Value) : (free v).Modest i Q ↔ Q () := ⟨fun h => h (), fun h _ => h⟩

end

section

variable {Q : Value → Prop}

@[simp] theorem modest_popData : popData.Modest i Q ↔ ∀ v, Q v := Iff.rfl
@[simp] theorem modest_copy (v : Value) : (copy v).Modest i Q ↔ ∀ v, Q v := Iff.rfl
@[simp] theorem modest_argument (j : Int) : (argument j).Modest i Q ↔ ∀ v, Q v := Iff.rfl

end

@[simp] theorem modest_assign {Q : Bool → Prop} (name : Text) (v : Value) :
    (assign name v).Modest i Q ↔ ∀ ok, Q ok := Iff.rfl
@[simp] theorem modest_fetch {Q : Option Value → Prop} (name : Text) : (fetch name).Modest i Q ↔ ∀ v, Q v := Iff.rfl
@[simp] theorem modest_glimpse {Q : Glimpse → Prop} : glimpse.Modest i Q ↔ ∀ g : Glimpse, g.index = i → Q g := Iff.rfl
@[simp] theorem modest_print {Q : Option Error → Prop} (line : Text) :
    (print line).Modest i Q ↔ ∀ e : Option Error, (∀ x ∈ e, x.IsBare) → Q e := Iff.rfl

end Proc

/-! ## The standard natives -/

def Native.IsModest (f : Native) : Prop := ∀ args i, (f args).Modest i fun _ => True

namespace Library

open Proc

theorem modest_skipWith {i : Int} (v : Value) : (skipWith v).Modest i fun _ => True := by simp [skipWith]

theorem modest_again {i : Int} {Q : Unit → Prop} (h : Q ()) : again.Modest i Q := by
  simp only [again, modest_bind, modest_glimpse, modest_jumpTo]
  exact fun g hg => ⟨hg, h⟩

theorem nop_modest : Native.IsModest nop := fun _ _ => trivial

theorem print_modest : Native.IsModest printBlock := by
  intro args i
  simp only [printBlock, modest_bind, modest_operand, modest_print]
  intro v _ e he
  cases e with
  | none => trivial
  | some x => exact ⟨he x rfl, trivial⟩

theorem return_modest : Native.IsModest returnBlock := by simp [Native.IsModest, returnBlock]

theorem declare_modest : Native.IsModest declareBlock := by simp [Native.IsModest, declareBlock]

theorem set_modest : Native.IsModest setBlock := by
  intro args i
  simp only [setBlock, modest_bind, modest_operand, modest_copy, modest_assign]
  intro _ _ _ _ v ok
  cases ok with
  | true => trivial
  | false => exact fun _ => ⟨⟨rfl, rfl⟩, trivial⟩

theorem get_modest : Native.IsModest getBlock := by
  intro args i
  simp only [getBlock, modest_bind, modest_operand, modest_fetch]
  intro _ _ v
  cases v with
  | none => exact ⟨⟨rfl, rfl⟩, trivial⟩
  | some v => trivial

/-- Natives that compute a value of two operands. -/
theorem binary_modest (f : Value → Value → Value) : Native.IsModest fun args => do
    let a ← operand args 0
    let b ← operand args 1
    return f a b := by simp [Native.IsModest]

theorem compare_modest : Native.IsModest compareBlock := by
  intro args i
  simp only [compareBlock, modest_bind, modest_operand]
  intro _ _ _ _ _ _
  repeat' split
  all_goals simp [Error.IsBare, Error.site?, Error.isCancellation, Error.root]

theorem if_modest : Native.IsModest ifBlock := by
  intro args i
  simp only [ifBlock, modest_bind, modest_operand, modest_marker]
  intro v _ mark _
  cases mark with
  | closing =>
    simp only [modest_bind, modest_operand]
    intro _ _
    split <;> trivial
  | opening =>
    dsimp only
    split
    · trivial
    · exact modest_skipWith _

theorem elseIf_modest : Native.IsModest elseIfBlock := by
  intro args i
  simp only [elseIfBlock, modest_bind, modest_operand, modest_marker]
  intro _ _ v _ mark _
  cases mark with
  | closing =>
    dsimp only
    split <;> trivial
  | opening =>
    dsimp only
    split
    · exact modest_skipWith _
    · split
      · trivial
      · exact modest_skipWith _

theorem else_modest : Native.IsModest elseBlock := by
  intro args i
  simp only [elseBlock, modest_bind, modest_operand, modest_marker]
  intro _ _ v _ mark _
  cases mark with
  | closing =>
    dsimp only
    split <;> trivial
  | opening =>
    dsimp only
    split
    · exact modest_skipWith _
    · trivial

theorem loop_modest : Native.IsModest loopBlock := by
  intro args i
  simp only [loopBlock, modest_bind, modest_operand, modest_marker]
  intro v _ mark _
  cases mark with
  | closing =>
    rw [modest_bind]
    exact modest_again trivial
  | opening => trivial

theorem while_modest : Native.IsModest whileBlock := by
  intro args i
  simp only [whileBlock, modest_bind, modest_operand, modest_marker]
  intro v _ mark _
  cases mark with
  | closing =>
    simp only [modest_bind, modest_operand]
    intro _ _
    split
    · rw [modest_bind]
      exact modest_again trivial
    · trivial
  | opening =>
    dsimp only
    split
    · trivial
    · exact modest_skipWith _

theorem repeat_modest : Native.IsModest repeatBlock := by
  intro args i
  simp only [repeatBlock, modest_bind, modest_operand, modest_marker]
  intro v _ mark _
  cases mark with
  | closing =>
    simp only [modest_bind, modest_operand]
    intro _ _
    split
    · simp only [modest_bind, modest_popData]
      intro _
      split
      · simp only [modest_bind, modest_pushData]
        exact modest_again trivial
      · trivial
    · trivial
  | opening =>
    dsimp only
    split
    · trivial
    · split
      · exact modest_skipWith _
      · simp

end Library

theorem parameter_modest : Native.IsModest parameterValue := by
  intro args i
  cases args with
  | nil => trivial
  | cons v vs => exact fun _ => trivial

/-- Of standard blocks, calls and placeholders all but calls are modest. -/
theorem Definition.modest_of_standard {d : Definition} (h : d.IsStandard) :
    (d.role = .call ∧ d.native = some callProcedure) ∨
      (d.role ≠ .call ∧ ∃ f, d.native = some f ∧ Native.IsModest f) := by
  cases h with
  | call ht hr hn => exact .inl ⟨hr, hn⟩
  | parameter i ht hr hn => exact .inr ⟨by rw [hr]; exact nofun, _, hn, parameter_modest⟩
  | library s hs hd =>
    have hr : d.role = s.role := by rw [hd]
    have hn : d.native = s.native := by rw [hd]
    have hplain : s.role = .plain := (by decide : ∀ s ∈ Library.standard, s.role = .plain) s hs
    refine .inr ⟨by rw [hr, hplain]; exact nofun, ?_⟩
    rw [hn]
    clear hr hn hd hplain
    simp only [Library.standard, List.mem_cons, List.not_mem_nil, or_false] at hs
    rcases hs with rfl | rfl | rfl | rfl | rfl | rfl | rfl | rfl | rfl | rfl | rfl | rfl | rfl | rfl | rfl | rfl |
      rfl | rfl | rfl
    · exact ⟨_, rfl, Library.nop_modest⟩
    · exact ⟨_, rfl, Library.nop_modest⟩
    · exact ⟨_, rfl, Library.nop_modest⟩
    · exact ⟨_, rfl, Library.return_modest⟩
    · exact ⟨_, rfl, Library.if_modest⟩
    · exact ⟨_, rfl, Library.elseIf_modest⟩
    · exact ⟨_, rfl, Library.else_modest⟩
    · exact ⟨_, rfl, Library.loop_modest⟩
    · exact ⟨_, rfl, Library.repeat_modest⟩
    · exact ⟨_, rfl, Library.while_modest⟩
    · exact ⟨_, rfl, Library.print_modest⟩
    · exact ⟨_, rfl, Library.declare_modest⟩
    · exact ⟨_, rfl, Library.set_modest⟩
    · exact ⟨_, rfl, Library.get_modest⟩
    · exact ⟨_, rfl, Library.binary_modest _⟩
    · exact ⟨_, rfl, Library.binary_modest _⟩
    · exact ⟨_, rfl, Library.binary_modest _⟩
    · exact ⟨_, rfl, Library.binary_modest _⟩
    · exact ⟨_, rfl, Library.compare_modest⟩

/-! ## What a modest native does -/

def Exits.swift : Exits := ⟨fun _ _ => True, fun _ => True, fun _ => False⟩

/-- What a modest native, of a block at a position, leaves of its own evaluation: a jump back to the
    block, if any, and an error of a sort. -/
structure EvalState.Home (i : Int) (P : Error → Prop) (s : EvalState) : Prop where
  index : s.index = i
  jump : s.jump = none ∨ s.jump = some i.toNat
  error : ∀ e ∈ s.error, P e

def Machine.AtHome (i : Int) (P : Error → Prop) (m : Machine) : Prop := ∃ s, m.exec.eval = some s ∧ s.Home i P

namespace Work

section

variable {i : Int} {P : Error → Prop} {m k : Machine}

theorem atHome_of_eval (h : m.AtHome i P) (hk : k.exec.eval = m.exec.eval) : k.AtHome i P := by
  obtain ⟨s, hs, h⟩ := h
  exact ⟨s, hk.trans hs, h⟩

/-- What answering a modest request does to the evaluation of the native. -/
theorem answer_modest (invoke : Invoker) {r : Request} {K : r.Reply → Prop} (hr : Proc.Defers i r K)
    (hP : ∀ e, r = .fail e → e.IsBare → P e) (h : m.AtHome i P) :
    (answer invoke r).Meets (fun reply k => K reply ∧ k.AtHome i P) .swift m := by
  cases r with
  | skipBody =>
    show skipBody.Meets _ _ m
    obtain ⟨s, hs, home⟩ := h
    unfold Meets skipBody
    rw [hs]
    dsimp only
    split
    · exact ⟨hr (), _, rfl, home.index, home.jump, home.error⟩
    · trivial
  | jumpTo j =>
    obtain ⟨rfl, hK⟩ := hr
    obtain ⟨s, hs, home⟩ := h
    refine ⟨hK, _, congrArg (Option.map _) hs, home.index, ?_, home.error⟩
    dsimp only
    split
    · exact .inr rfl
    · exact .inl rfl
  | fail e =>
    obtain ⟨hbare, hK⟩ := hr
    obtain ⟨s, hs, home⟩ := h
    refine ⟨hK, _, congrArg (Option.map _) hs, home.index, home.jump, fun x hx => ?_⟩
    obtain rfl : s.error.getD e = x := Option.some.inj hx
    cases herror : s.error with
    | none => exact hP e rfl hbare
    | some y => exact home.error y herror
  | finish v =>
    refine ⟨hr (), atHome_of_eval h ?_⟩
    dsimp only
    split <;> rfl
  | declare name v =>
    show (declare name v).Meets (fun (_ : Unit) k => K () ∧ k.AtHome i P) .swift m
    simp only [declare, meets_bind, meets_read, meets_pushVariable]
    split
    · exact ⟨hr (), atHome_of_eval h rfl⟩
    · trivial
  | assign name v =>
    show (assign name v).Meets _ _ m
    unfold Meets assign
    split
    · exact ⟨hr false, h⟩
    · exact ⟨hr true, atHome_of_eval h rfl⟩
  | fetch name =>
    show (fetch name).Meets (fun (v : Option Value) k => K v ∧ k.AtHome i P) .swift m
    simp only [fetch, meets_bind, meets_read]
    split
    · exact ⟨hr none, h⟩
    · exact ⟨hr _, atHome_of_eval h rfl⟩
  | pushData v =>
    show (pushControl (.data v)).Meets (fun (_ : Unit) k => K () ∧ k.AtHome i P) .swift m
    rw [meets_pushControl]
    split
    · exact ⟨hr (), atHome_of_eval h rfl⟩
    · trivial
  | popData =>
    show popData.Meets _ _ m
    unfold Meets popData
    split
    · exact ⟨hr _, atHome_of_eval h rfl⟩
    · trivial
  | argument j =>
    show (argument j).Meets (fun (v : Value) k => K v ∧ k.AtHome i P) .swift m
    simp only [argument, meets_bind, meets_read]
    split
    · exact ⟨hr _, h⟩
    · split
      · exact ⟨hr _, atHome_of_eval h rfl⟩
      · exact ⟨hr _, h⟩
  | call c args => exact hr.elim
  | pause => exact hr.elim
  | glimpse =>
    obtain ⟨s, hs, home⟩ := h
    refine ⟨hr _ ?_, s, hs, home⟩
    dsimp only
    rw [hs]
    exact home.index
  | print line =>
    show (print line).Meets _ _ m
    unfold Meets print
    split
    · exact ⟨hr _ fun x hx => Option.some.inj hx ▸ ⟨rfl, rfl⟩, h⟩
    · exact ⟨hr _ nofun, atHome_of_eval h rfl⟩
  | cancelRun cause =>
    refine ⟨hr (), atHome_of_eval h ?_⟩
    dsimp only
    split <;> rfl
  | _ => exact ⟨hr _, atHome_of_eval h rfl⟩

/-- A modest native ends without a pause, and if it does not break down, it has jumped to its own block
    or nowhere, and failed with a bare error of its own if at all. -/
theorem perform_modest {α : Type} {invoke : Invoker} {q : Proc α} {Q : α → Prop} (hq : q.Modest i Q)
    (hP : ∀ e, e.IsBare → q.MayFail e → P e) (h : m.AtHome i P) :
    (perform invoke q).Meets (fun _ k => k.AtHome i P) .swift m := by
  induction q generalizing m with
  | done a => exact h
  | crash f => trivial
  | ask r go ih =>
    show (answer invoke r >>= fun reply => perform invoke (go reply)).Meets _ _ m
    rw [meets_bind]
    refine (answer_modest invoke hq (fun e he hbare => hP e hbare (.inl he)) h).weaken fun reply k ⟨hK, hk⟩ => ?_
    exact ih reply hK (fun e hbare he => hP e hbare (.inr ⟨reply, he⟩)) hk

end

end Work

end BlockEngine
