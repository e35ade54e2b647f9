/-
  BlockEngine.Proofs.Library.Conduct — what the standard natives ask for.

  A native knows nothing but its operands and the replies it gets, so what it can do to the machine
  shows in its requests. `Does` runs through a procedure with what the block has of its own: the
  values that it keeps on top of the control stack, and the position it asked to go on at. The rules
  say where it stands and what is let pass.

  Proved: every standard native, call and placeholder, entered as the engine enters it, conducts
  itself (`conducts_of_standard`): it asks for nothing but what the rules permit, keeps a value only
  as a repetition that is under way, and jumps only back to itself on closing, with fewer passes left
  unless it may go on for ever.
-/

import BlockEngine.Library.Palette
import BlockEngine.Proofs.Machine.Operands
import BlockEngine.Registry.Procedure
import Mathlib.Algebra.GroupWithZero.Nat
import Mathlib.Data.List.Basic

namespace BlockEngine

def Value.IsScalar : Value → Prop
  | .scalar .. => True
  | .list .. => False

/-- Where an evaluation stands and what is let pass. -/
structure Rules where
  /-- The position in the chain, -1 inside an argument. -/
  index : Int
  canSkip : Bool
  /-- Breaking down is let pass. -/
  lenient : Prop
  /-- All values are scalars. -/
  flat : Prop
  /-- Which chains are called. -/
  callee : ChainId → Prop

def Rules.Allows (r : Rules) (v : Value) : Prop := r.flat → v.IsScalar

/-- What a block has of its own while its native is at work. -/
structure Private where
  /-- What it keeps on the control stack, the last kept first. -/
  kept : List Value := []
  jump : Option Nat := none

namespace Proc

variable {α β : Type}

/-- The request is permitted, and so is what is done with every reply that may come. -/
def Permits (ρ : Rules) : (r : Request) → (r.Reply → Private → Prop) → Private → Prop
  | .skipBody, k, s => (ρ.canSkip = true ∨ ρ.lenient) ∧ k () s
  | .jumpTo i, k, s => k () { s with jump := if 0 ≤ i then some i.toNat else none }
  | .finish v, k, s => ρ.Allows v ∧ k () s
  | .fail e, k, s => e.isCancellation = false ∧ k () s
  | .declare _ v, k, s => ρ.Allows v ∧ k () s
  | .assign _ v, k, s => ρ.Allows v ∧ ∀ ok, k ok s
  | .fetch _, k, s => ∀ v : Option Value, (∀ x ∈ v, ρ.Allows x) → k v s
  | .pushData v, k, s => ρ.Allows v ∧ k () { s with kept := v :: s.kept }
  | .popData, k, s =>
    match s.kept with
    | v :: rest => k v { s with kept := rest }
    | [] => False
  | .argument _, k, s => ∀ v : Value, ρ.Allows v → k v s
  | .call c args, k, s =>
    (∀ x ∈ c, ρ.callee x) ∧ (∀ v ∈ args, ρ.Allows v) ∧ ∀ v : Value, ρ.Allows v → k v s
  | .glimpse, k, s => ∀ g : Glimpse, g.index = ρ.index → k g s
  | .copy v, k, s => ρ.Allows v ∧ ∀ x : Value, ρ.Allows x → k x s
  | .free v, k, s => ρ.Allows v ∧ k () s
  | .print _, k, s => ∀ e : Option Error, (∀ x ∈ e, x.isCancellation = false) → k e s
  | _, _, _ => False

def Does (ρ : Rules) (Q : α → Private → Prop) : Proc α → Private → Prop
  | .done a, s => Q a s
  | .crash _, _ => ρ.lenient
  | .ask r go, s => Permits ρ r (fun reply s => (go reply).Does ρ Q s) s

variable {ρ : Rules} {s : Private}

theorem permits_mono {r : Request} {k k' : r.Reply → Private → Prop} (h : ∀ a s, k a s → k' a s)
    (hk : Permits ρ r k s) : Permits ρ r k' s := by
  cases r with
  | skipBody => exact ⟨hk.1, h _ _ hk.2⟩
  | jumpTo i => exact h _ _ hk
  | finish v => exact ⟨hk.1, h _ _ hk.2⟩
  | fail e => exact ⟨hk.1, h _ _ hk.2⟩
  | declare name v => exact ⟨hk.1, h _ _ hk.2⟩
  | assign name v => exact ⟨hk.1, fun ok => h _ _ (hk.2 ok)⟩
  | fetch name => exact fun v hv => h _ _ (hk v hv)
  | pushData v => exact ⟨hk.1, h _ _ hk.2⟩
  | popData =>
    obtain ⟨kept, jump⟩ := s
    cases kept with
    | nil => exact hk
    | cons v rest => exact h _ _ hk
  | argument i => exact fun v hv => h _ _ (hk v hv)
  | call c args => exact ⟨hk.1, hk.2.1, fun v hv => h _ _ (hk.2.2 v hv)⟩
  | glimpse => exact fun g hg => h _ _ (hk g hg)
  | copy v => exact ⟨hk.1, fun x hx => h _ _ (hk.2 x hx)⟩
  | free v => exact ⟨hk.1, h _ _ hk.2⟩
  | print line => exact fun e he => h _ _ (hk e he)
  | _ => exact hk.elim

theorem does_mono {Q Q' : α → Private → Prop} {p : Proc α} (h : ∀ a s, Q a s → Q' a s) (hp : Does ρ Q p s) :
    Does ρ Q' p s := by
  induction p generalizing s with
  | done a => exact h a s hp
  | crash f => exact hp
  | ask r go ih => exact permits_mono (fun a s => ih a) hp

@[simp] theorem does_bind {Q : β → Private → Prop} (p : Proc α) (f : α → Proc β) :
    Does ρ Q (p >>= f) s ↔ Does ρ (fun a s => Does ρ Q (f a) s) p s := by
  induction p generalizing s with
  | done a => exact Iff.rfl
  | crash x => exact Iff.rfl
  | ask r go ih =>
    exact ⟨permits_mono fun a s => (ih a).mp, permits_mono fun a s => (ih a).mpr⟩

section

variable {Q : Unit → Private → Prop}

@[simp] theorem does_jumpTo (i : Int) :
    Does ρ Q (jumpTo i) s ↔ Q () { s with jump := if 0 ≤ i then some i.toNat else none } := Iff.rfl
@[simp] theorem does_finish (v : Value) : Does ρ Q (finish v) s ↔ ρ.Allows v ∧ Q () s := Iff.rfl
@[simp] theorem does_declare (name : Text) (v : Value) : Does ρ Q (declare name v) s ↔ ρ.Allows v ∧ Q () s :=
  Iff.rfl
@[simp] theorem does_pushData (v : Value) :
    Does ρ Q (pushData v) s ↔ ρ.Allows v ∧ Q () { s with kept := v :: s.kept } := Iff.rfl

end

@[simp] theorem does_assign {Q : Bool → Private → Prop} (name : Text) (v : Value) :
    Does ρ Q (assign name v) s ↔ ρ.Allows v ∧ ∀ ok, Q ok s := Iff.rfl
@[simp] theorem does_fetch {Q : Option Value → Private → Prop} (name : Text) :
    Does ρ Q (fetch name) s ↔ ∀ v : Option Value, (∀ x ∈ v, ρ.Allows x) → Q v s := Iff.rfl
@[simp] theorem does_glimpse {Q : Glimpse → Private → Prop} :
    Does ρ Q glimpse s ↔ ∀ g : Glimpse, g.index = ρ.index → Q g s := Iff.rfl
@[simp] theorem does_print {Q : Option Error → Private → Prop} (line : Text) :
    Does ρ Q (print line) s ↔ ∀ e : Option Error, (∀ x ∈ e, x.isCancellation = false) → Q e s := Iff.rfl

section

variable {Q : Value → Private → Prop}

@[simp] theorem does_copy (v : Value) : Does ρ Q (copy v) s ↔ ρ.Allows v ∧ ∀ x, ρ.Allows x → Q x s := Iff.rfl
@[simp] theorem does_popData (v : Value) (rest : List Value) (jump : Option Nat) :
    Does ρ Q popData ⟨v :: rest, jump⟩ ↔ Q v ⟨rest, jump⟩ := Iff.rfl

@[simp] theorem does_operand (args : List Value) (i : Nat) :
    Does ρ Q (operand args i) s ↔
      match args[i]? with
      | some v => Q v s
      | none => ρ.lenient := by
  unfold operand
  cases args[i]? <;> exact Iff.rfl

end

@[simp] theorem does_marker {Q : Marker → Private → Prop} (m : Marker) :
    Does ρ Q (marker (.ofMarker m)) s ↔ Q m s := Iff.rfl

end Proc

/-! ## Entries -/

def passesLeft (kept : List Value) : Nat := (kept.map (·.toInt64.toInt.toNat)).sum

namespace Definition

/-- A block of the kind that yielded the value on entry is a repetition under way. -/
def repeats (d : Definition) (v : Value) : Bool := d.type == .control && d.id == "repeat" && v.toBool

/-- A block of the kind may go on for ever: nothing counts its passes. -/
def isUnbounded (d : Definition) : Bool := d.type == .control && (d.id == "loop" || d.id == "while")

def arity (d : Definition) : Nat := (d.inputs.filter fun i => i.type == .argument || i.type == .dropdown).length

/-- How the engine enters a block of the kind at a position: the marker, whether without its declared
    arguments, the value that it goes on from, and what it keeps on the control stack. -/
inductive Entered (d : Definition) (index : Int) (lenient : Prop) : Marker → Bool → Option Value → List Value → Prop
  | plain : d.type.opens = false → Entered d index lenient .opening false none []
  | begins : d.type = .control → 0 ≤ index → Entered d index lenient .opening false none []
  | resumes (x : Value) : d.repeats (.ofBool true) = true → 0 ≤ index → Entered d index lenient .opening true none [x]
  | continues (v : Value) : d.type = .continuation → 0 ≤ index →
      Entered d index lenient .opening v.isOmitted (some v) []
  | closes (v : Value) (kept : List Value) : d.type.opens = true → 0 ≤ index →
      kept.length = (if d.repeats v then 1 else 0) → Entered d index lenient .closing true (some v) kept
  /-- Anything may stand in an argument where breaking down is let pass. -/
  | nested : lenient → Entered d index lenient .opening false none []

/-- How a block of the kind leaves off that has kept some values before and yields one: what it keeps
    now, and where it jumps. Unless it may go on for ever, it jumps back with fewer passes left. -/
def Leaves (d : Definition) (index : Int) (before : List Value) (v : Value) (s : Private) : Marker → Prop
  | .opening => s.jump = none ∧ (s.kept.length = if d.repeats v then 1 else 0) ∧ before <:+ s.kept
  | .closing =>
    (s.jump = none ∧ s.kept = []) ∨
      (s.jump = some index.toNat ∧ d.type = .control ∧ s.kept.length = (if v.isOmitted then 1 else 0) ∧
        (v.isOmitted = true → d.repeats (.ofBool true) = true) ∧
        (d.isUnbounded = false → v.isOmitted = true ∧ passesLeft s.kept < passesLeft before))

/-- The operands of an entry: those that no input declares, and one for each that does. -/
structure Operands (d : Definition) (mark : Marker) (bare : Bool) (prior : Option Value) (args vs : List Value) :
    Prop where
  split : args = Work.hidden d mark prior ++ vs
  count : vs.length = if bare || mark == .closing then 0 else d.arity

/-- Blocks of the kind do nothing but what the rules permit, however they are entered. -/
def Conducts (d : Definition) (native : Native) : Prop :=
  ∀ (ρ : Rules) mark bare prior kept args vs,
    d.Entered ρ.index ρ.lenient mark bare prior kept →
    ρ.canSkip = (decide (0 ≤ ρ.index) && d.type.opens && mark == .opening) →
    d.Operands mark bare prior args vs → (∀ v ∈ args, ρ.Allows v) → (d.role = .call → ∀ c ∈ d.owner, ρ.callee c) →
    (native args).Does ρ (fun v s => ρ.Allows v ∧ d.Leaves ρ.index kept v s mark) ⟨kept, none⟩

variable {d : Definition}

theorem repeats_of_plain (ht : d.type.opens = false) (v : Value) : d.repeats v = false := by
  have : (d.type == .control) = false := by
    cases hd : d.type <;> rw [hd] at ht <;> first | rfl | cases ht
  simp [repeats, this]

/-- A plain block keeps nothing. -/
theorem Leaves.kept_eq_nil {index : Int} {before : List Value} {v : Value} {s : Private}
    (h : d.Leaves index before v s .opening) (ht : d.type.opens = false) : s.kept = [] :=
  List.eq_nil_of_length_eq_zero (by rw [h.2.1, repeats_of_plain ht]; rfl)

/-- A plain block is entered once, on its declared operands. -/
theorem Entered.of_plain {index : Int} {lenient : Prop} {mark : Marker} {bare : Bool} {prior : Option Value}
    {kept : List Value} (h : d.Entered index lenient mark bare prior kept) (ht : d.type.opens = false) :
    mark = .opening ∧ bare = false ∧ prior = none ∧ kept = [] := by
  cases h with
  | plain => exact ⟨rfl, rfl, rfl, rfl⟩
  | nested => exact ⟨rfl, rfl, rfl, rfl⟩
  | begins h => rw [h] at ht; cases ht
  | continues v h => rw [h] at ht; cases ht
  | resumes x h => rw [repeats_of_plain ht] at h; cases h
  | closes v kept h => rw [h] at ht; cases ht

/-- A block that is entered with its declared arguments keeps nothing yet. -/
theorem Entered.kept_eq_nil {index : Int} {lenient : Prop} {mark : Marker} {bare : Bool} {prior : Option Value}
    {kept : List Value} (h : d.Entered index lenient mark bare prior kept)
    (hb : (bare || mark == .closing) = false) : kept = [] := by
  cases h with
  | resumes => cases hb
  | closes => cases hb
  | _ => rfl

/-! ## Plain natives -/

theorem conducts_plain (ht : d.type.opens = false) (hr : d.role = .plain) {native : Native}
    (h : ∀ (ρ : Rules) vs, vs.length = d.arity → (∀ v ∈ vs, ρ.Allows v) →
      (native vs).Does ρ (fun v s => ρ.Allows v ∧ s = {}) {}) : d.Conducts native := by
  intro ρ mark bare prior kept args vs he _ ha hv _
  obtain ⟨rfl, rfl, rfl, rfl⟩ := he.of_plain ht
  have hargs : args = vs := by simpa [Work.hidden, hr, ht] using ha.split
  subst hargs
  refine Proc.does_mono (fun v s hs => ?_) (h ρ args ha.count hv)
  rw [hs.2]
  exact ⟨hs.1, rfl, by rw [repeats_of_plain ht]; rfl, List.nil_suffix⟩

theorem allows_nothing (ρ : Rules) : ρ.Allows .nothing := fun _ => trivial

theorem conducts_nop (ht : d.type.opens = false) (hr : d.role = .plain) : d.Conducts Library.nop :=
  conducts_plain ht hr fun ρ _ _ _ => ⟨allows_nothing ρ, rfl⟩

theorem conducts_print (ht : d.type.opens = false) (hr : d.role = .plain) (ha : d.arity = 1) :
    d.Conducts Library.printBlock := by
  refine conducts_plain ht hr fun ρ vs hvs hv => ?_
  obtain ⟨a, rfl⟩ := List.length_eq_one_iff.mp (hvs.trans ha)
  simp only [Library.printBlock, Proc.does_bind, Proc.does_operand, Proc.does_print, List.getElem?_cons_zero]
  intro e he
  cases e with
  | none => exact ⟨allows_nothing ρ, rfl⟩
  | some x => exact ⟨he x rfl, allows_nothing ρ, rfl⟩

theorem conducts_return (ht : d.type.opens = false) (hr : d.role = .plain) (ha : d.arity = 1) :
    d.Conducts Library.returnBlock := by
  refine conducts_plain ht hr fun ρ vs hvs hv => ?_
  obtain ⟨a, rfl⟩ := List.length_eq_one_iff.mp (hvs.trans ha)
  simp only [Library.returnBlock, Proc.does_bind, Proc.does_operand, Proc.does_copy, Proc.does_finish,
    List.getElem?_cons_zero]
  exact ⟨hv a List.mem_cons_self, fun x hx => ⟨hx, allows_nothing ρ, rfl⟩⟩

theorem conducts_declare (ht : d.type.opens = false) (hr : d.role = .plain) (ha : d.arity = 2) :
    d.Conducts Library.declareBlock := by
  refine conducts_plain ht hr fun ρ vs hvs hv => ?_
  obtain ⟨a, b, rfl⟩ := List.length_eq_two.mp (hvs.trans ha)
  simp only [Library.declareBlock, Proc.does_bind, Proc.does_operand, Proc.does_copy, Proc.does_declare,
    List.getElem?_cons_zero, List.getElem?_cons_succ]
  exact ⟨hv b (by simp), fun x hx => ⟨hx, allows_nothing ρ, rfl⟩⟩

theorem conducts_set (ht : d.type.opens = false) (hr : d.role = .plain) (ha : d.arity = 2) :
    d.Conducts Library.setBlock := by
  refine conducts_plain ht hr fun ρ vs hvs hv => ?_
  obtain ⟨a, b, rfl⟩ := List.length_eq_two.mp (hvs.trans ha)
  simp only [Library.setBlock, Proc.does_bind, Proc.does_operand, Proc.does_copy, Proc.does_assign,
    List.getElem?_cons_zero, List.getElem?_cons_succ]
  refine ⟨hv b (by simp), fun x hx => ⟨hx, fun ok => ?_⟩⟩
  cases ok with
  | true => exact ⟨allows_nothing ρ, rfl⟩
  | false => exact ⟨hx, rfl, allows_nothing ρ, rfl⟩

theorem conducts_get (ht : d.type.opens = false) (hr : d.role = .plain) (ha : d.arity = 1) :
    d.Conducts Library.getBlock := by
  refine conducts_plain ht hr fun ρ vs hvs hv => ?_
  obtain ⟨a, rfl⟩ := List.length_eq_one_iff.mp (hvs.trans ha)
  simp only [Library.getBlock, Proc.does_bind, Proc.does_operand, Proc.does_fetch, List.getElem?_cons_zero]
  intro v hv
  cases v with
  | none => exact ⟨rfl, allows_nothing ρ, rfl⟩
  | some x => exact ⟨hv x rfl, rfl⟩

/-- Natives that compute a scalar of two operands. -/
theorem conducts_binary (ht : d.type.opens = false) (hr : d.role = .plain) (ha : d.arity = 2)
    {f : Value → Value → Value} (hf : ∀ a b, (f a b).IsScalar) :
    d.Conducts fun args => do
      let a ← Proc.operand args 0
      let b ← Proc.operand args 1
      return f a b := by
  refine conducts_plain ht hr fun ρ vs hvs hv => ?_
  obtain ⟨a, b, rfl⟩ := List.length_eq_two.mp (hvs.trans ha)
  simp only [Proc.does_bind, Proc.does_operand, List.getElem?_cons_zero, List.getElem?_cons_succ]
  exact ⟨fun _ => hf a b, rfl⟩

theorem conducts_compare (ht : d.type.opens = false) (hr : d.role = .plain) (ha : d.arity = 3) :
    d.Conducts Library.compareBlock := by
  refine conducts_plain ht hr fun ρ vs hvs hv => ?_
  obtain ⟨a, b, c, rfl⟩ := List.length_eq_three.mp (hvs.trans ha)
  simp only [Library.compareBlock, Proc.does_bind, Proc.does_operand, List.getElem?_cons_zero,
    List.getElem?_cons_succ]
  repeat' split
  · exact ⟨fun _ => trivial, rfl⟩
  · exact ⟨fun _ => trivial, rfl⟩
  · exact ⟨fun _ => trivial, rfl⟩
  · exact ⟨rfl, allows_nothing ρ, rfl⟩

/-- Placeholders. -/
theorem conducts_parameter {i : Nat} (ht : d.type.opens = false) (hr : d.role = .parameter i) :
    d.Conducts parameterValue := by
  intro ρ mark bare prior kept args vs he _ ha hv _
  obtain ⟨rfl, rfl, rfl, rfl⟩ := he.of_plain ht
  have hargs : args = .ofInt (Int64.ofNat i) :: vs := by simpa [Work.hidden, hr, ht] using ha.split
  subst hargs
  exact fun v hv => ⟨hv, rfl, by rw [repeats_of_plain ht]; rfl, List.nil_suffix⟩

/-- Calls. -/
theorem conducts_call (ht : d.type.opens = false) (hr : d.role = .call) : d.Conducts callProcedure := by
  intro ρ mark bare prior kept args vs he _ ha hv ho
  obtain ⟨rfl, rfl, rfl, rfl⟩ := he.of_plain ht
  have hargs : args = .ofChain d.owner :: vs := by simpa [Work.hidden, hr, ht] using ha.split
  subst hargs
  refine ⟨ho hr, fun v h => hv v (List.mem_cons_of_mem _ h), fun v hv => ⟨hv, rfl, ?_, List.nil_suffix⟩⟩
  rw [repeats_of_plain ht]
  rfl

/-! ## Control natives -/

theorem hidden_of_opens (ht : d.type.opens = true) (hr : d.role = .plain) (mark : Marker) (prior : Option Value) :
    Work.hidden d mark prior = .ofMarker mark :: prior.toList := by
  simp [Work.hidden, hr, ht]

/-- Control blocks that keep nothing. -/
theorem conducts_control (ht : d.type = .control) (hr : d.role = .plain) (hid : d.id ≠ "repeat") {native : Native}
    (hopen : ∀ (ρ : Rules) vs, vs.length = d.arity → (ρ.canSkip = true ∨ ρ.lenient) →
      (native (.ofMarker .opening :: vs)).Does ρ (fun v s => ρ.Allows v ∧ s = {}) {})
    (hclose : ∀ (ρ : Rules) v, 0 ≤ ρ.index → (native [.ofMarker .closing, v]).Does ρ
      (fun w s => ρ.Allows w ∧
        (s = {} ∨ s = ⟨[], some ρ.index.toNat⟩ ∧ w.isOmitted = false ∧ d.isUnbounded = true)) {}) :
    d.Conducts native := by
  have hn : ∀ v, d.repeats v = false := fun v => by simp [repeats, hid]
  have ho : d.type.opens = true := by rw [ht]; rfl
  have hopens : ∀ (ρ : Rules) {args vs : List Value}, d.Operands .opening false none args vs →
      (ρ.canSkip = true ∨ ρ.lenient) →
      (native args).Does ρ (fun v s => ρ.Allows v ∧ d.Leaves ρ.index [] v s .opening) {} := by
    intro ρ args vs ha hskip
    rw [ha.split, hidden_of_opens ho hr]
    refine Proc.does_mono (fun v s hs => ⟨hs.1, ?_⟩) (hopen ρ vs ha.count hskip)
    rw [hs.2]
    exact ⟨rfl, by rw [hn]; rfl, List.nil_suffix⟩
  intro ρ mark bare prior kept args vs he hskip ha _ _
  cases he with
  | plain h => rw [ho] at h; cases h
  | begins _ hi => exact hopens ρ ha (.inl (by rw [hskip, ho]; simpa using hi))
  | resumes x h => rw [hn] at h; cases h
  | continues v h => rw [ht] at h; cases h
  | nested h => exact hopens ρ ha (.inr h)
  | closes v kept _ hi hk =>
    rw [hn] at hk
    obtain rfl := List.eq_nil_of_length_eq_zero hk
    obtain rfl := List.eq_nil_of_length_eq_zero ha.count
    rw [ha.split, hidden_of_opens ho hr]
    refine Proc.does_mono (fun w s hs => ⟨hs.1, ?_⟩) (hclose ρ v hi)
    rcases hs.2 with rfl | ⟨rfl, hw, hu⟩
    · exact .inl ⟨rfl, rfl⟩
    · refine .inr ⟨rfl, ht, by rw [hw]; rfl, fun h => ?_, fun h => ?_⟩
      · rw [hw] at h
        cases h
      · rw [hu] at h
        cases h

theorem conducts_continuation (ht : d.type = .continuation) (hr : d.role = .plain) {native : Native}
    (hopen : ∀ (ρ : Rules) v vs, vs.length = (if v.isOmitted then 0 else d.arity) → ρ.canSkip = true →
      (native (.ofMarker .opening :: v :: vs)).Does ρ (fun v s => ρ.Allows v ∧ s = {}) {})
    (hclose : ∀ (ρ : Rules) v,
      (native [.ofMarker .closing, v]).Does ρ (fun w s => ρ.Allows w ∧ s = {}) {})
    (hnest : ∀ (ρ : Rules) vs, ρ.lenient → vs.length = d.arity →
      (native (.ofMarker .opening :: vs)).Does ρ (fun v s => ρ.Allows v ∧ s = {}) {}) :
    d.Conducts native := by
  have hn : ∀ v, d.repeats v = false := fun v => by simp [repeats, ht]
  have ho : d.type.opens = true := by rw [ht]; rfl
  have hleave : ∀ (ρ : Rules) (v : Value) (s : Private), ρ.Allows v ∧ s = {} →
      ρ.Allows v ∧ d.Leaves ρ.index [] v s .opening := by
    rintro ρ v s ⟨hv, rfl⟩
    exact ⟨hv, rfl, by rw [hn]; rfl, List.nil_suffix⟩
  intro ρ mark bare prior kept args vs he hskip ha _ _
  cases he with
  | plain h => rw [ho] at h; cases h
  | begins h => rw [ht] at h; cases h
  | resumes x h => rw [hn] at h; cases h
  | continues v _ hi =>
    rw [ha.split, hidden_of_opens ho hr]
    refine Proc.does_mono (hleave ρ) (hopen ρ v vs ?_ ?_)
    · simpa using ha.count
    · rw [hskip, ho]
      simpa using hi
  | nested h =>
    rw [ha.split, hidden_of_opens ho hr]
    exact Proc.does_mono (hleave ρ) (hnest ρ vs h ha.count)
  | closes v kept _ hi hk =>
    rw [hn] at hk
    obtain rfl := List.eq_nil_of_length_eq_zero hk
    obtain rfl := List.eq_nil_of_length_eq_zero ha.count
    rw [ha.split, hidden_of_opens ho hr]
    exact Proc.does_mono (fun w s hs => ⟨hs.1, .inl (by rw [hs.2]; exact ⟨rfl, rfl⟩)⟩) (hclose ρ v)

theorem does_skipWith {ρ : Rules} {v : Value} (hv : ρ.Allows v) (hs : ρ.canSkip = true ∨ ρ.lenient) :
    (Library.skipWith v).Does ρ (fun v s => ρ.Allows v ∧ s = {}) {} := ⟨hs, hv, rfl⟩

theorem conducts_if (ht : d.type = .control) (hr : d.role = .plain) (hid : d.id ≠ "repeat") :
    d.Conducts Library.ifBlock := by
  refine conducts_control ht hr hid (fun ρ vs _ hs => ?_) fun ρ v _ => ?_
  · simp only [Library.ifBlock, Proc.does_bind, Proc.does_operand, Proc.does_marker, List.getElem?_cons_zero]
    split
    · exact ⟨fun _ => trivial, rfl⟩
    · exact does_skipWith (fun _ => trivial) hs
  · simp only [Library.ifBlock, Proc.does_bind, Proc.does_operand, Proc.does_marker, List.getElem?_cons_zero,
      List.getElem?_cons_succ]
    split <;> exact ⟨fun _ => trivial, .inl rfl⟩

theorem does_again {ρ : Rules} (hi : 0 ≤ ρ.index) {Q : Unit → Private → Prop} {s : Private}
    (hQ : Q () { s with jump := some ρ.index.toNat }) : Library.again.Does ρ Q s := by
  simp only [Library.again, Proc.does_bind, Proc.does_glimpse, Proc.does_jumpTo]
  intro g hg
  rwa [hg, if_pos hi]

theorem conducts_loop (ht : d.type = .control) (hr : d.role = .plain) (hid : d.id = "loop") :
    d.Conducts Library.loopBlock := by
  have hu : d.isUnbounded = true := by simp [isUnbounded, ht, hid]
  refine conducts_control ht hr (by rw [hid]; decide) (fun ρ vs _ hs => ?_) fun ρ v hi => ?_
  · exact ⟨fun _ => trivial, rfl⟩
  · simp only [Library.loopBlock, Proc.does_bind, Proc.does_operand, Proc.does_marker, List.getElem?_cons_zero]
    exact does_again hi ⟨allows_nothing ρ, .inr ⟨rfl, rfl, hu⟩⟩

theorem conducts_while (ht : d.type = .control) (hr : d.role = .plain) (hid : d.id = "while") :
    d.Conducts Library.whileBlock := by
  have hu : d.isUnbounded = true := by simp [isUnbounded, ht, hid]
  refine conducts_control ht hr (by rw [hid]; decide) (fun ρ vs _ hs => ?_) fun ρ v hi => ?_
  · simp only [Library.whileBlock, Proc.does_bind, Proc.does_operand, Proc.does_marker, List.getElem?_cons_zero]
    split
    · exact ⟨fun _ => trivial, rfl⟩
    · exact does_skipWith (fun _ => trivial) hs
  · simp only [Library.whileBlock, Proc.does_bind, Proc.does_operand, Proc.does_marker, List.getElem?_cons_zero,
      List.getElem?_cons_succ]
    split
    · rw [Proc.does_bind]
      exact does_again hi ⟨allows_nothing ρ, .inr ⟨rfl, rfl, hu⟩⟩
    · exact ⟨allows_nothing ρ, .inl rfl⟩

theorem conducts_elseIf (ht : d.type = .continuation) (hr : d.role = .plain) (ha : d.arity = 1) :
    d.Conducts Library.elseIfBlock := by
  refine conducts_continuation ht hr (fun ρ v vs _ hs => ?_) (fun ρ v => ?_) fun ρ vs hl hvs => ?_
  · simp only [Library.elseIfBlock, Proc.does_bind, Proc.does_operand, Proc.does_marker, List.getElem?_cons_zero,
      List.getElem?_cons_succ]
    split
    · exact does_skipWith (fun _ => trivial) (.inl hs)
    · split
      · exact ⟨fun _ => trivial, rfl⟩
      · exact does_skipWith (fun _ => trivial) (.inl hs)
  · simp only [Library.elseIfBlock, Proc.does_bind, Proc.does_operand, Proc.does_marker, List.getElem?_cons_zero,
      List.getElem?_cons_succ]
    split <;> exact ⟨fun _ => trivial, rfl⟩
  · obtain ⟨a, rfl⟩ := List.length_eq_one_iff.mp (hvs.trans ha)
    simp only [Library.elseIfBlock, Proc.does_bind, Proc.does_operand, Proc.does_marker, List.getElem?_cons_zero,
      List.getElem?_cons_succ]
    split
    · exact does_skipWith (fun _ => trivial) (.inr hl)
    · split
      · exact ⟨fun _ => trivial, rfl⟩
      · exact does_skipWith (fun _ => trivial) (.inr hl)

theorem conducts_else (ht : d.type = .continuation) (hr : d.role = .plain) (ha : d.arity = 0) :
    d.Conducts Library.elseBlock := by
  refine conducts_continuation ht hr (fun ρ v vs _ hs => ?_) (fun ρ v => ?_) fun ρ vs hl hvs => ?_
  · simp only [Library.elseBlock, Proc.does_bind, Proc.does_operand, Proc.does_marker, List.getElem?_cons_zero,
      List.getElem?_cons_succ]
    split
    · exact does_skipWith (fun _ => trivial) (.inl hs)
    · exact ⟨fun _ => trivial, rfl⟩
  · simp only [Library.elseBlock, Proc.does_bind, Proc.does_operand, Proc.does_marker, List.getElem?_cons_zero,
      List.getElem?_cons_succ]
    split <;> exact ⟨fun _ => trivial, rfl⟩
  · obtain rfl := List.eq_nil_of_length_eq_zero (hvs.trans ha)
    exact hl

theorem passesLeft_pred {x : Value} (h : 0 < x.toInt64) : passesLeft [.ofInt (x.toInt64 - 1)] < passesLeft [x] := by
  have hx : (0 : Int) < x.toInt64.toInt := Int64.lt_iff_toInt_lt.mp h
  have hpred : (x.toInt64 - 1).toInt = x.toInt64.toInt - 1 := by
    have hlt := x.toInt64.toInt_lt
    rw [Int64.toInt_sub, show (1 : Int64).toInt = 1 from rfl]
    exact Int.bmod_eq_of_le (by omega) (by omega)
  show (x.toInt64 - 1).toInt.toNat + 0 < x.toInt64.toInt.toNat + 0
  rw [hpred]
  omega

/-- A repetition keeps the passes left, under its frame, as long as it is under way. -/
theorem conducts_repeat (ht : d.type = .control) (hr : d.role = .plain) (hid : d.id = "repeat") (ha : d.arity = 1) :
    d.Conducts Library.repeatBlock := by
  have ho : d.type.opens = true := by rw [ht]; rfl
  have hrep : ∀ v, d.repeats v = v.toBool := fun v => by simp [repeats, ht, hid]
  have hopens : ∀ (ρ : Rules) {args vs : List Value}, d.Operands .opening false none args vs →
      (ρ.canSkip = true ∨ ρ.lenient) →
      (Library.repeatBlock args).Does ρ (fun v s => ρ.Allows v ∧ d.Leaves ρ.index [] v s .opening) {} := by
    intro ρ args vs hargs hskip
    obtain ⟨a, rfl⟩ := List.length_eq_one_iff.mp (hargs.count.trans ha)
    rw [hargs.split, hidden_of_opens ho hr]
    simp only [Library.repeatBlock, Proc.does_bind, Proc.does_operand, Proc.does_marker, List.getElem?_cons_zero,
      List.getElem?_cons_succ, Option.toList_none, List.cons_append, List.nil_append]
    split
    · refine Proc.does_mono (fun v s hs => ⟨hs.1, ?_⟩) (p := Library.skipWith (.ofBool false)) (s := {})
        (Q := fun v s => ρ.Allows v ∧ v = .ofBool false ∧ s = {}) ?_
      · obtain ⟨-, rfl, rfl⟩ := hs
        exact ⟨rfl, by rw [hrep]; rfl, List.nil_suffix⟩
      · exact ⟨hskip, fun _ => trivial, rfl, rfl⟩
    · exact ⟨fun _ => trivial, fun _ => trivial, rfl, by rw [hrep]; rfl, List.nil_suffix⟩
  intro ρ mark bare prior kept args vs he hskip hargs _ _
  cases he with
  | plain h => rw [ho] at h; cases h
  | begins _ hi => exact hopens ρ hargs (.inl (by rw [hskip, ho]; simpa using hi))
  | nested h => exact hopens ρ hargs (.inr h)
  | continues v h => rw [ht] at h; cases h
  | resumes x _ hi =>
    obtain rfl := List.eq_nil_of_length_eq_zero hargs.count
    rw [hargs.split, hidden_of_opens ho hr]
    exact ⟨fun _ => trivial, rfl, by rw [hrep]; rfl, List.suffix_refl _⟩
  | closes v kept _ hi hk =>
    obtain rfl := List.eq_nil_of_length_eq_zero hargs.count
    rw [hargs.split, hidden_of_opens ho hr]
    simp only [Library.repeatBlock, Proc.does_bind, Proc.does_operand, Proc.does_marker, List.getElem?_cons_zero,
      List.getElem?_cons_succ, Option.toList_some, List.cons_append, List.nil_append]
    rw [hrep] at hk
    split
    · rename_i hv
      rw [if_pos hv] at hk
      obtain ⟨x, rfl⟩ := List.length_eq_one_iff.mp hk
      rw [Proc.does_bind, Proc.does_popData]
      split
      · simp only [Proc.does_bind, Proc.does_pushData]
        rename_i hleft
        refine ⟨fun _ => trivial, does_again hi ⟨fun _ => trivial, .inr ⟨rfl, ht, rfl, fun _ => ?_, fun _ => ?_⟩⟩⟩
        · rw [hrep]
          rfl
        · exact ⟨rfl, passesLeft_pred hleft⟩
      · exact ⟨allows_nothing ρ, .inl ⟨rfl, rfl⟩⟩
    · rename_i hv
      rw [if_neg hv] at hk
      obtain rfl := List.eq_nil_of_length_eq_zero hk
      exact ⟨allows_nothing ρ, .inl ⟨rfl, rfl⟩⟩

/-! ## Standard kinds -/

/-- The kind is one of the standard blocks, of the calls of a procedure, or of the placeholders for
    its parameters. -/
inductive IsStandard (d : Definition) : Prop
  | library (s : Definition) : s ∈ Library.standard →
      d = { s with color := d.color, hidden := d.hidden, owner := d.owner } → IsStandard d
  | call : d.type = .normal → d.role = .call → d.native = some callProcedure → IsStandard d
  | parameter (i : Nat) : d.type = .normal → d.role = .parameter i → d.native = some parameterValue → IsStandard d

theorem IsStandard.of_index (i : Nat) (hi : i < Library.standard.length)
    (hd : d = { Library.standard[i] with color := d.color, hidden := d.hidden, owner := d.owner }) : d.IsStandard :=
  .library _ (List.getElem_mem hi) hd

/-- Standard blocks, calls and placeholders do nothing but what the rules permit. -/
theorem conducts_of_standard (h : d.IsStandard) : ∃ native, d.native = some native ∧ d.Conducts native := by
  cases h with
  | call ht hr hn => exact ⟨_, hn, conducts_call (by rw [ht]; rfl) hr⟩
  | parameter i ht hr hn => exact ⟨_, hn, conducts_parameter (by rw [ht]; rfl) hr⟩
  | library s hs hd =>
    have ht : d.type = s.type := by rw [hd]
    have hi : d.id = s.id := by rw [hd]
    have hr : d.role = s.role := by rw [hd]
    have hn : d.native = s.native := by rw [hd]
    have ha : d.arity = s.arity := by rw [hd]; rfl
    clear hd
    simp only [Library.standard, List.mem_cons, List.not_mem_nil, or_false] at hs
    rcases hs with rfl | rfl | rfl | rfl | rfl | rfl | rfl | rfl | rfl | rfl | rfl | rfl | rfl | rfl | rfl | rfl |
      rfl | rfl | rfl
    · exact ⟨_, hn, conducts_nop (by rw [ht]; rfl) hr⟩
    · exact ⟨_, hn, conducts_nop (by rw [ht]; rfl) hr⟩
    · exact ⟨_, hn, conducts_nop (by rw [ht]; rfl) hr⟩
    · exact ⟨_, hn, conducts_return (by rw [ht]; rfl) hr ha⟩
    · exact ⟨_, hn, conducts_if ht hr (by rw [hi]; decide)⟩
    · exact ⟨_, hn, conducts_elseIf ht hr ha⟩
    · exact ⟨_, hn, conducts_else ht hr ha⟩
    · exact ⟨_, hn, conducts_loop ht hr hi⟩
    · exact ⟨_, hn, conducts_repeat ht hr hi ha⟩
    · exact ⟨_, hn, conducts_while ht hr hi⟩
    · exact ⟨_, hn, conducts_print (by rw [ht]; rfl) hr ha⟩
    · exact ⟨_, hn, conducts_declare (by rw [ht]; rfl) hr ha⟩
    · exact ⟨_, hn, conducts_set (by rw [ht]; rfl) hr ha⟩
    · exact ⟨_, hn, conducts_get (by rw [ht]; rfl) hr ha⟩
    · refine ⟨_, hn, conducts_binary (by rw [ht]; rfl) hr ha fun a b => ?_⟩
      unfold Library.sum
      split <;> trivial
    · exact ⟨_, hn, conducts_binary (by rw [ht]; rfl) hr ha fun _ _ => trivial⟩
    · exact ⟨_, hn, conducts_binary (by rw [ht]; rfl) hr ha fun _ _ => trivial⟩
    · exact ⟨_, hn, conducts_binary (by rw [ht]; rfl) hr ha fun _ _ => trivial⟩
    · exact ⟨_, hn, conducts_compare (by rw [ht]; rfl) hr ha⟩

end Definition

end BlockEngine
