/-
  BlockEngine.Proofs.Structured.Refinement — the flat walk refines structured execution.

  The two interpreters are compared twice, from either side. A walk with some fuel is followed by the
  structured run with as much, which does not starve first; and a structured run that ends is followed
  by all walks with enough fuel. What is let pass is excluded by what is asked of the program: that its
  natives keep to the discipline (`Disciplined`), and that no stack is full on the way (`Uncrowded`).

  Proved: `walk_refines_structure`. An invocation by the walk ends iff the structured one does, and then
  alike: with the same result, error or fault, on the same machine, so with the same bindings and the
  same record of native calls. Standard blocks are disciplined in chains that nest.
-/

import BlockEngine.Proofs.Machine.Past
import BlockEngine.Proofs.Structured.Discipline
import BlockEngine.Proofs.Structured.Simulation

namespace BlockEngine

open Work

section

variable (host : Machine → Machine) (c : ChainId) (args : List Value) (m : Machine)

/-- The structured run of a chain, called as often as it asks to, never finds a native or a chain that
    it does not allow for. -/
def Disciplined (breach : Fault) : Prop := ∀ n k, (Structured.invoke breach n c args m).driven host ≠ .fault breach k

/-- No stack is ever full. -/
def Uncrowded : Prop := ∀ n f k, (invoke n c args m).driven host = .fault f k → ¬ f.IsOverflow

end

section

variable {host : Machine → Machine} (hh : ∀ m : Machine, m.MayResume (host m)) (breach : Fault)

/-- The walk beside a structured run that may starve, or the other way around. -/
def beside (firstStarves secondStarves : Prop) : Link :=
  .here host hh Fault.IsOverflow (· = breach) firstStarves secondStarves

/-- The walks with no more fuel than the structured run has. -/
def upTo : Horizon (beside hh breach True False) where
  reach n := .principal {k | k ≤ n}
  shrinks n := Filter.principal_mono.mpr fun k hk => Nat.le_succ_of_le hk
  turn n p h := by
    rw [Filter.eventually_principal] at h ⊢
    intro k hk
    cases k with
    | zero => exact .inl ⟨rfl, trivial⟩
    | succ j => exact .inr ⟨j, rfl, h j (Nat.le_of_succ_le_succ hk)⟩
  bottom := .inr ⟨trivial, Filter.eventually_principal.mpr fun _ hk => Nat.le_zero.mp hk⟩

/-- All walks with enough fuel. -/
def eventually : Horizon (beside hh breach False True) where
  reach _ := .atTop
  shrinks _ := le_rfl
  turn n p h := by
    obtain ⟨N, hN⟩ := Filter.eventually_atTop.mp h
    refine Filter.eventually_atTop.mpr ⟨N + 1, fun k hk => .inr ?_⟩
    exact ⟨k - 1, by omega, hN _ (by omega)⟩
  bottom := .inl trivial

variable {breach} {c : ChainId} {args : List Value} {m : Machine} (hs : m.Scoped)
include hh hs

theorem structured_of_walk (hd : Disciplined host c args m breach) (ho : Uncrowded host c args m)
    {o : Outcome (Except Error Value)} (he : o.Ended) {n : Nat} (h : (invoke n c args m).driven host = o) :
    (Structured.invoke breach n c args m).driven host = o := by
  have htends := (simulates rfl rfl (upTo hh breach) (fun k => ⟨_, k, rfl⟩) n).2 c args m ⟨hs, .inl rfl⟩
  have hfollows : Outcome.Follows (beside hh breach True False) ((invoke n c args m).driven host)
      ((Structured.invoke breach n c args ((beside hh breach True False).second m)).driven host) :=
    Filter.eventually_principal.mp htends n (Nat.le_refl n)
  rw [h, Link.second_eq rfl rfl] at hfollows
  refine hfollows.eq rfl rfl (fun k hk => ?_) (fun _ _ => id) (fun f k hf => ho n f k (h.trans hf)) fun f k hk hf => ?_
  · rw [hk] at he
    exact he.elim
  · obtain rfl : f = breach := hf
    exact hd n k hk

theorem walk_of_structured (hd : Disciplined host c args m breach) (ho : Uncrowded host c args m)
    {o : Outcome (Except Error Value)} (he : o.Ended) {n : Nat}
    (h : (Structured.invoke breach n c args m).driven host = o) :
    ∃ k, (invoke k c args m).driven host = o := by
  have htends := (simulates rfl rfl (eventually hh breach) (fun k => ⟨_, k, rfl⟩) n).2 c args m ⟨hs, .inl rfl⟩
  obtain ⟨N, hN⟩ := Filter.eventually_atTop.mp htends
  have hfollows : Outcome.Follows (beside hh breach False True) ((invoke N c args m).driven host)
      ((Structured.invoke breach n c args ((beside hh breach False True).second m)).driven host) := hN N (Nat.le_refl N)
  rw [Link.second_eq rfl rfl, h] at hfollows
  refine ⟨N, (hfollows.eq rfl rfl (fun _ _ => id) (fun k hk => ?_) (fun f k hf => ho N f k hf) fun f k hk hf => ?_).symm⟩
  · rw [hk] at he
    exact he.elim
  · obtain rfl : f = breach := hf
    exact hd n k (h.trans hk)

/-- Standard blocks, calls and placeholders are disciplined in chains that nest. -/
theorem disciplined_of_tidy (hb : ¬ breach.IsOverflow) (R : Region m.program) (ht : R.Tidy) (hc : R.chains c) :
    Disciplined host c args m breach := by
  intro n k hk
  have hkeeps : (Structured.invoke breach n c args).Meets _ (.orderly False False) m :=
    ((Structured.structured_keeps breach n).2 ht).2 hc hs rfl False.elim fun _ _ hf => hf.elim
  have hdriven := Outcome.Meets.driven hh hkeeps
  rw [hk] at hdriven
  exact hb (hdriven.resolve_right id)

end

/-- An invocation by the flat walk ends iff the recursive interpreter over the bracket trees of its
    chains ends, and both come out alike: with the same result, error or fault and on the same
    machine, so with the same bindings and the same native calls. This holds of all natives that keep
    to the discipline, on every machine on which no stack is full on the way, whatever the host does at
    pauses; and all standard natives keep to the discipline, where the chains that run nest and no
    block that opens a body stands in an argument. -/
theorem walk_refines_structure {host : Machine → Machine} (hh : ∀ m : Machine, m.MayResume (host m)) (breach : Fault)
    (c : ChainId) (args : List Value) {m : Machine} (hs : m.Scoped) :
    (Disciplined host c args m breach → Uncrowded host c args m → ∀ o : Outcome (Except Error Value), o.Ended →
        ((∃ n, (invoke n c args m).driven host = o) ↔
          ∃ n, (Structured.invoke breach n c args m).driven host = o)) ∧
      (¬ breach.IsOverflow → ∀ R : Region m.program, R.Tidy → R.chains c → Disciplined host c args m breach) := by
  refine ⟨fun hd ho o he => ⟨?_, ?_⟩, fun hb R ht hc => disciplined_of_tidy hh hs hb R ht hc⟩
  · rintro ⟨n, hn⟩
    exact ⟨n, structured_of_walk hh hs hd ho he hn⟩
  · rintro ⟨n, hn⟩
    exact walk_of_structured hh hs hd ho he hn

theorem walk_refines_structure_twice :
    Disciplined id 0 [] twiceIdle (.message "breach") ∧ Uncrowded id 0 [] twiceIdle ∧
      ∃ n r k, (Structured.invoke (.message "breach") n 0 [] twiceIdle).driven id = .done r k := by
  have hh : ∀ m : Machine, m.MayResume (id m) := Machine.MayResume.refl
  have hdone : ((invoke 100 0 [] twiceIdle).driven id).isDone = true := by decide +kernel
  obtain ⟨r, k, hk⟩ := Outcome.eq_done_of_isDone hdone
  have hroom : Uncrowded id 0 [] twiceIdle := fun n f k' hf => absurd hf (invoke_ne_fault hh hk n f k')
  have hbreach : ¬ Fault.IsOverflow (.message "breach") := by
    rintro ⟨_, _, h⟩
    cases h
  obtain ⟨hrefines, hstandard⟩ := walk_refines_structure hh (.message "breach") 0 [] (m := twiceIdle) rfl
  have hdisciplined := hstandard hbreach twiceRegion twice_tidy rfl
  obtain ⟨n, hn⟩ := (hrefines hdisciplined hroom (.done r k) trivial).mp ⟨100, hk⟩
  exact ⟨hdisciplined, hroom, n, r, k, hn⟩

end BlockEngine
