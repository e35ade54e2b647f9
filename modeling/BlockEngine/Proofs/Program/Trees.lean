/-
  BlockEngine.Proofs.Program.Trees — the links of a program's trees.

  Proved of every sequence of careful calls, whatever comes of each:
  - `trees_stay_linked`: what a slot holds goes with its type and that with its input, the parent of a
    nested block is the block whose slot holds it, and blocks of chains and detached blocks that callers
    have in hand have none. A call that breaks down at a slot has changed nothing, and no error of an
    evaluation comes of a slot.

  Two things are otherwise than one expects. A block that is destroyed while a slot holds it stays in the
  slot, without a parent (`not_always_parent`). The slots of a block that is destroyed, which callers may
  still have, stay of type block without a block (`not_always_filled`).
-/

import BlockEngine.Proofs.Machine.Errors
import BlockEngine.Proofs.Program.Moves
import Mathlib.Data.List.Induction

namespace BlockEngine

namespace Call

open Program

def given (p : Program) : Call → Option BlockId
  | newBlock r h =>
    match ((Edit.newBlock r h).run p).1 with
    | .ok (.ok b) => some b
    | _ => none
  | copyBlock b parent => ((Edit.copyBlock b parent).run p).1.toOption
  | takeBlock b i =>
    match ((Edit.takeBlock b i).run p).1 with
    | .ok o => o
    | .error _ => none
  | _ => none

def isTransition : Call → Bool
  | setText .. | setConst .. | nest .. | takeBlock .. | setDefinition .. | clear .. => true
  | _ => false

variable {p : Program} {c : Call} {b : BlockId} {off : BlockId → Nat → BlockId → Option BlockId → Prop}

/-- A block that a caller is handed is not astray. -/
theorem given_tame (hp : p.Linked off) (ht : p.Typed) (hc : c.Careful p) (hb : c.given p = some b) :
    b < (c.edit.run p).2.blocks.size ∧ ¬ (c.edit.run p).2.Stray b := by
  cases c with
  | newBlock r h =>
    rw [edit, run_quiet]
    obtain ⟨-, hnew⟩ := Edit.newBlock_grows r h hp
    dsimp only [given] at hb
    split at hb
    · rename_i b' hok
      cases hb
      obtain ⟨-, hlt, hnone⟩ := hnew _ hok _ rfl
      exact ⟨hlt, fun hs => hs.2 hnone⟩
    · cases hb
  | copyBlock b' parent =>
    rw [edit, run_quiet]
    obtain ⟨-, hcopy⟩ := Edit.copyTree_grows (p.blocks.size + 1) b' parent hp
    have hok : ((Edit.copyBlock b' parent).run p).1 = .ok b := by
      dsimp only [given] at hb
      revert hb
      cases ((Edit.copyBlock b' parent).run p).1 <;> simp [Except.toOption]
    obtain ⟨-, hlt, hparent⟩ := hcopy b hok
    exact ⟨hlt, fun hs => hs.2 (hparent.trans hc)⟩
  | takeBlock b' i =>
    rw [edit, run_quiet]
    obtain ⟨-, -, hroot, -⟩ := hp.takeBlock ht b' i
    dsimp only [given] at hb
    split at hb
    · rename_i o hok
      have hb' := hroot b (hok.trans (congrArg _ hb))
      exact ⟨hb'.there, fun hs => hs.2 hb'.parentless⟩
    · cases hb
  | _ => cases hb

theorem run_quiet_error {α : Type} {e : Edit α} {f : Fault} (h : ((quiet e).run p).1 = .error f) :
    (e.run p).1 = .error f := by
  rw [quiet, Edit.run_bind] at h
  generalize e.run p = o at h
  obtain ⟨f' | a, q⟩ := o
  · cases h
    rfl
  · cases h

/-- Where a slot refuses a payload, or is not there, nothing has changed. -/
theorem transition_error (hp : p.Linked off) (ht : p.Typed) (hc : c.isTransition = true) {f : Fault}
    (hf : (c.edit.run p).1 = .error f) : (c.edit.run p).2 = p := by
  have hreplace : ∀ {name input b i payload}, ((Edit.replace name input b i payload).run p).1 = .error f →
      ((Edit.replace name input b i payload).run p).2 = p := by
    intro name input b i payload h
    rcases Edit.run_replace name input b i payload p with ⟨f', hf'⟩ | ⟨x, s, -, -, -, hrun⟩
    · rw [hf']
    · rw [hrun] at h
      cases h
  cases c with
  | setText b i t => exact (run_quiet _ p).trans (hreplace (run_quiet_error hf))
  | setConst b i t => exact (run_quiet _ p).trans (hreplace (run_quiet_error hf))
  | setDefinition b i h => exact (run_quiet _ p).trans (hreplace (run_quiet_error hf))
  | nest b i child =>
    have hf' := run_quiet_error hf
    refine (run_quiet _ p).trans ?_
    rw [Edit.nest, Edit.run_bind] at hf' ⊢
    rcases Edit.run_replace "SetBlock" .argument b i (.block child) p with ⟨f', hrun⟩ | ⟨x, s, -, -, -, hrun⟩
    · rw [hrun]
    · rw [hrun] at hf'
      cases hf'
  | takeBlock b i => exact (run_quiet _ p).trans ((hp.takeBlock ht b i).2.2.2 f (run_quiet_error hf))
  | clear b i =>
    have hf' := run_quiet_error hf
    refine (run_quiet _ p).trans ?_
    rcases Edit.run_clear b i p with ⟨f', hrun⟩ | ⟨x, s, -, -, hrun⟩
    · rw [hrun]
    · rw [hrun] at hf'
      cases hf'
  | _ => cases hc

end Call

namespace Program

open Call

theorem Typed.supported {p : Program} (hp : p.Typed) : p.Supported := fun _ _ hx s hs =>
  (hp.slots hx s hs).type_ne_unknown

def CarefulRun : Program → List Call → Prop
  | _, [] => True
  | p, c :: rest => c.Careful p ∧ CarefulRun (c.edit.run p).2 rest

/-- The block was destroyed while the slot `i` of the other one held it. -/
def DestroyedIn (p : Program) (calls : List Call) (a : BlockId) (i : Nat) (b : BlockId) : Prop :=
  ∃ earlier later, calls = earlier ++ .destroyBlock b :: later ∧ (p.after earlier).Holds a i b

/-- The blocks that callers can have in hand after some calls: those that they were handed, those of chains,
    and what is nested in them. -/
inductive Met (p : Program) : List Call → BlockId → Prop
  | given {calls : List Call} {c : Call} {b : BlockId} : c.given (p.after calls) = some b → Met p (calls ++ [c]) b
  | listed {calls : List Call} {k : ChainId} {b : BlockId} : b ∈ (p.after calls).chain k → Met p calls b
  | nested {calls : List Call} {a b : BlockId} {i : Nat} : Met p calls a → (p.after calls).Holds a i b → Met p calls b
  | still {calls : List Call} {c : Call} {b : BlockId} : Met p calls b → Met p (calls ++ [c]) b

variable {n : Nat} {calls : List Call} {b : BlockId}

theorem carefulRun_append (p : Program) (a b : List Call) :
    p.CarefulRun (a ++ b) ↔ p.CarefulRun a ∧ (p.after a).CarefulRun b := by
  induction a generalizing p with
  | nil => simp [CarefulRun, after]
  | cons c a ih => simp only [List.cons_append, CarefulRun, ih, and_assoc, after_cons]

theorem Linked.start (n : Nat) (off : BlockId → Nat → BlockId → Option BlockId → Prop) : (start n).Linked off := by
  have hnone : ∀ {a i b}, ¬ (Program.start n).Holds a i b := by
    rintro a i b ⟨x, s, hx, -⟩
    simp [Program.start] at hx
  exact ⟨.start n, fun h => (hnone h).elim, fun h => (hnone h).elim, fun h => by simp [Program.start, chain] at h⟩

/-- Only blocks that were destroyed in their slots are off their parents. -/
theorem linked_after (h : (start n).CarefulRun calls) : ((start n).after calls).Linked fun a i b parent =>
    parent = none ∧ (start n).DestroyedIn calls a i b := by
  induction calls using List.reverseRecOn with
  | nil => exact .start n _
  | append_singleton calls c ih =>
    rw [carefulRun_append] at h
    rw [after_append]
    refine (Call.linked_edit (ih h.1) (typed_after (typed_start n) calls) h.2.1).1.weaken fun {a i b} _ hoff => ?_
    rcases hoff with ⟨hnone, earlier, later, rfl, hold⟩ | ⟨hnone, rfl, hold⟩
    · exact ⟨hnone, earlier, later ++ [c], by simp, hold⟩
    · exact ⟨hnone, calls, [], rfl, hold⟩

/-- No block that a caller has in hand is astray. -/
theorem Met.tame (hb : (start n).Met calls b) (h : (start n).CarefulRun calls) :
    b < ((start n).after calls).blocks.size ∧ ¬ ((start n).after calls).Stray b := by
  induction hb with
  | @given calls c b hgiven =>
    rw [carefulRun_append] at h
    rw [after_append]
    exact Call.given_tame (linked_after h.1) (typed_after (typed_start n) calls) h.2.1 hgiven
  | listed hmem =>
    have hroot := (linked_after h).top hmem
    exact ⟨hroot.there, fun hs => hs.2 hroot.parentless⟩
  | nested _ hold => exact ⟨(linked_after h).bounded hold.nests, fun hs => hs.1 _ _ hold⟩
  | @still calls c b _ ih =>
    rw [carefulRun_append] at h
    obtain ⟨hlt, htame⟩ := ih h.1
    have hstep := (Call.linked_edit (linked_after h.1) (typed_after (typed_start n) calls) h.2.1).2
    rw [after_append]
    exact ⟨Nat.lt_of_lt_of_le hlt hstep.size, fun hs => htame (hstep.stray hlt hs)⟩

/-! ## Looking at a program -/

theorem free_of_forall {p : Program} (h : ∀ x ∈ p.blocks.toList, ∀ s ∈ x.slots, s.block ≠ some b) :
    p.Free b := by
  rintro a i ⟨x, s, hx, hs, hb⟩
  exact h x (Array.mem_toList_iff.mpr (Array.mem_of_getElem? hx)) s (List.mem_of_getElem? hs) (s.block_of_payload hb)

/-- Where nothing is nested, and there are no chains. -/
theorem detached_of_flat {p : Program} {c : BlockId} (hflat : ∀ x ∈ p.blocks.toList, ∀ s ∈ x.slots, s.block = none)
    (hb : b < p.blocks.size) (hc : p.chains.size = 0) (hne : b ≠ c) : p.Detached b ∧ ¬ p.Reaches b c := by
  have hfree : ∀ d, p.Free d := fun d => free_of_forall fun x hx s hs => by simp [hflat x hx s hs]
  refine ⟨⟨hb, hfree b, fun k => ?_⟩, fun hr => ?_⟩
  · have hk : p.chains[k]? = none := Array.getElem?_eq_none (hc ▸ Nat.zero_le k)
    simp [chain, hk]
  · obtain h | ⟨d, hd, -⟩ := hr.cases_head
    · exact hne h
    · exact (hfree d).not_nests hd

end Program

open Program

/-- Over every sequence of careful calls, the trees of a program stay linked.
    - The type of a slot is one that its input takes, and the slot holds what the type says and nothing else. The
      slots that a destroyed block had hold nothing.
    - The parent of a nested block is the block whose slot holds it. Where it is not, the block was destroyed
      while that slot held it, and has none.
    - Blocks of chains have no parent, nor has a block that a caller has in hand and no slot holds.
    - A call that breaks down at a slot has changed nothing.
    - An error that an evaluation reports is one of a native, or that there is no native, no procedure to call, a
      jump out of a chain or a cancellation: none comes of a slot. -/
theorem trees_stay_linked (n : Nat) (calls : List Call) (h : (start n).CarefulRun calls) :
    let p := (start n).after calls
    (∀ (b : BlockId) (x : Block), p.blocks[b]? = some x → (∀ s ∈ x.slots, s.WellTyped) ∧ ∀ s ∈ x.left, s.Spent) ∧
    (∀ a i b, p.Holds a i b → p.parentOf b = some a ∨ p.parentOf b = none ∧ (start n).DestroyedIn calls a i b) ∧
    (∀ k, ∀ b ∈ p.chain k, p.parentOf b = none) ∧
    (∀ b, (start n).Met calls b → p.Free b → p.parentOf b = none) ∧
    (∀ c : Call, c.isTransition = true → ∀ f, (c.edit.run p).1 = .error f → (c.edit.run p).2 = p) ∧
    (∀ fuel b index mark bare prior m, m.program = p → (Work.evaluate fuel b index mark bare prior).Meets
      (fun r _ => ∀ e, r = .error e → Sourced p e) (.all fun _ => True) m) := by
  intro p
  have hp : p.Linked _ := linked_after h
  have ht : p.Typed := typed_after (typed_start n) calls
  refine ⟨fun b x hx => ⟨ht.slots hx, ht.left hx⟩, fun a i b => hp.parent, fun k b hb => (hp.top hb).parentless,
    fun b hb hfree => ?_, fun c hc f => Call.transition_error hp ht hc, fun fuel b index mark bare prior m hm => ?_⟩
  · exact Classical.byContradiction fun hsome => (hb.tame h).2 ⟨hfree, hsome⟩
  · exact hm ▸ Work.evaluate_sourced fuel b index mark bare prior (hm.symm ▸ ht.supported)

/-- A block is nested in another of its kind, and that one is copied. -/
def stacking : List Call :=
  [.register 0 { id := [], inputs := [{ type := .argument }] }, .newBlock 0 ⟨0, 1⟩, .newBlock 0 ⟨0, 1⟩, .nest 0 0 1,
    .copyBlock 0 none]

theorem stacking_careful : (start 1).CarefulRun stacking :=
  ⟨trivial, trivial, trivial, detached_of_flat (by decide) (by decide) (by decide) (by decide), rfl, trivial⟩

theorem trees_stay_linked_stacking :
    (start 1).CarefulRun stacking ∧ ((start 1).after stacking).parentOf 3 = some 2 ∧
      ((start 1).after stacking).parentOf 2 = none := by
  obtain ⟨-, hparent, -, hmet, -⟩ := trees_stay_linked 1 stacking stacking_careful
  refine ⟨stacking_careful, (hparent 2 0 3 ⟨_, _, rfl, rfl, rfl⟩).resolve_right ?_, hmet 2 ?_ ?_⟩
  · rintro ⟨-, earlier, later, hcalls, -⟩
    have hmem : Call.destroyBlock 3 ∈ stacking := hcalls ▸ by simp
    simp [stacking] at hmem
  · show (start 1).Met (stacking.take 4 ++ [.copyBlock 0 none]) 2
    exact .given (by decide)
  · exact free_of_forall (by decide)

/-- A block is destroyed in its slot. -/
def clipping : List Call := stacking.take 4 ++ [.destroyBlock 1]

/-- Then the slot still holds it, but it has no parent. -/
theorem not_always_parent :
    ¬ ∀ (n : Nat) (calls : List Call), (start n).CarefulRun calls → let p := (start n).after calls
      ∀ a i b, p.Holds a i b → p.parentOf b = some a := by
  intro h
  have hcareful : (start 1).CarefulRun clipping :=
    ⟨trivial, trivial, trivial, detached_of_flat (by decide) (by decide) (by decide) (by decide), trivial, trivial⟩
  have hparent := h 1 clipping hcareful 0 0 1 ⟨_, _, rfl, rfl, rfl⟩
  exact absurd hparent (by decide)

/-- A block is destroyed that holds another. -/
def razing : List Call := stacking.take 4 ++ [.destroyBlock 0]

/-- Then the slot that it had is still of type block. -/
theorem not_always_filled :
    ¬ ∀ (n : Nat) (calls : List Call), (start n).CarefulRun calls → let p := (start n).after calls
      ∀ (b : BlockId) (x : Block), p.blocks[b]? = some x → ∀ s ∈ x.left, s.type = .block → s.block.isSome := by
  intro h
  have hcareful : (start 1).CarefulRun razing :=
    ⟨trivial, trivial, trivial, detached_of_flat (by decide) (by decide) (by decide) (by decide), trivial, trivial⟩
  have hfilled := h 1 razing hcareful 0 _ rfl ⟨.argument, .block, [], none, .zero⟩ (.head _) rfl
  cases hfilled

end BlockEngine
