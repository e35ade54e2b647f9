/-
  BlockEngine.Proofs.Program.Failing — what failed operations on a registry change.

  Five operations are answered with an error if their handle is stale (`Attempt`). Each asks for its own
  record first, so then nothing has changed. Three go on below that record, where definitions embed others,
  and can meet a stale handle there; what they have done by then stays (`Attempt.Leaves`).

  Proved after every sequence of calls, fair or not:
  - `failures_end_below`: a failed operation has changed nothing, or it met a stale handle below its own.
    Adding a reference and placing a block are never of the second kind. After fair calls a fair operation
    that fails has changed nothing.
-/

import BlockEngine.Proofs.Program.Counts
import BlockEngine.Proofs.Registry.Failing

namespace BlockEngine

open Program

/-- An operation on a registry that is answered with an error if its handle is stale. -/
inductive Attempt where
  | retain
  | release
  | unregister
  | copyDefinition
  | newBlock

namespace Attempt

def call (a : Attempt) (r : RegistryId) (h : Handle) : Call :=
  match a with
  | retain => .retain r h
  | release => .release r h
  | unregister => .unregister r h
  | copyDefinition => .copyDefinition r h
  | newBlock => .newBlock r h

def refusal {α : Type} (e : Edit (Except Error α)) (p : Program) : Option Error :=
  match (e.run p).1 with
  | .ok (.error x) => some x
  | _ => none

def error? (a : Attempt) (r : RegistryId) (h : Handle) (p : Program) : Option Error :=
  match a with
  | retain => refusal (Edit.onRegistry r (·.retain h)) p
  | release => refusal (Edit.onRegistry r (·.release h)) p
  | unregister => refusal (Edit.onRegistry r (·.unregister h)) p
  | copyDefinition => refusal (Edit.onRegistry r (·.copyDefinition h)) p
  | newBlock => refusal (Edit.newBlock r h) p

/-- What the operation leaves of a registry if it went below its own handle, which was not stale, and met
    `k`, which was. -/
def Leaves (a : Attempt) (h k : Handle) (r s : Registry) : Prop :=
  match a with
  | release => Registry.Torn h k r s
  | unregister => Registry.Torn h k (r.unlisted h) s
  | copyDefinition => Registry.Grown r s ∧ s.holding? k = none ∧ ∃ k', r.Below h k' ∧ r.holding? k' = none
  | retain | newBlock => False

section

variable {p : Program} {l : Ledger} {r : RegistryId} {h : Handle} {e : Error} {α : Type} {a : Attempt}

theorem refusal_onRegistry {f : Registry → Except Error α × Registry} (hf : refusal (Edit.onRegistry r f) p = some e) :
    f (p.registry r) = (.error e, (f (p.registry r)).2) := by
  change (match (Except.ok (f (p.registry r)).1 : Except Fault (Except Error α)) with
    | .ok (.error x) => some x
    | _ => none) = some e at hf
  generalize f (p.registry r) = o at hf
  obtain ⟨x | a, s⟩ := o
  · cases hf
    rfl
  · cases hf

/-- The operation changes one registry at most, but for placing a block. -/
theorem run_call (r : RegistryId) (h : Handle) (p : Program) :
    ((call retain r h).edit.run p).2 = p.setRegistry r ((p.registry r).retain h).2 ∧
    ((call release r h).edit.run p).2 = p.setRegistry r ((p.registry r).release h).2 ∧
    ((call unregister r h).edit.run p).2 = p.setRegistry r ((p.registry r).unregister h).2 ∧
    ((call copyDefinition r h).edit.run p).2 = p.setRegistry r ((p.registry r).copyDefinition h).2 :=
  ⟨rfl, rfl, rfl, rfl⟩

theorem refusal_bind {β : Type} {e : Edit β} {f : β → Edit (Except Error α)} (hf : ∀ b q, refusal (f b) q = none)
    (p : Program) : refusal (e >>= f) p = none := by
  unfold refusal
  rw [Edit.run_bind]
  generalize e.run p = o
  obtain ⟨x | b, q⟩ := o
  · rfl
  · exact hf b q

theorem retain_error {s : Registry} (he : (p.registry r).retain h = (.error e, s)) :
    e = .stale h ∧ s = p.registry r := by
  unfold Registry.retain at he
  split at he
  · cases he
    exact ⟨rfl, rfl⟩
  · cases he

/-- A kind that can be counted is there, and then the block is placed. -/
theorem newBlock_error (he : refusal (Edit.newBlock r h) p = some e) :
    e = .stale h ∧ ((call newBlock r h).edit.run p).2 = p := by
  cases hx : (p.registry r).holding? h with
  | none =>
    have hrun : (Edit.newBlock r h).run p = (.ok (.error (.stale h)), p) := by
      rw [Edit.newBlock, Edit.run_bind, Edit.run_retain_stale hx]
      rfl
    rw [refusal, hrun] at he
    cases he
    exact ⟨rfl, (Call.run_quiet _ _).trans (by rw [hrun])⟩
  | some x =>
    rw [Edit.newBlock, refusal, Edit.run_bind, Edit.run_retain hx, ← refusal] at he
    rw [refusal_bind fun q _ => ?_] at he
    · cases he
    dsimp only
    split
    · rfl
    · exact refusal_bind (fun ss _ => refusal_bind (fun b _ => rfl) _) _

theorem leaves_of_error (ha : ∀ r, (p.registry r).Arena) (he : a.error? r h p = some e) :
    let q := p.after [a.call r h]
    (e = .stale h ∧ q = p) ∨ ∃ k s, e = .stale k ∧ q = p.setRegistry r s ∧ a.Leaves h k (p.registry r) s := by
  obtain ⟨hretain, hrelease, hunregister, hcopy⟩ := run_call r h p
  have hsame : ∀ {q s}, q = p.setRegistry r s → s = p.registry r → q = p := by
    rintro q s rfl rfl
    exact setRegistry_self r p
  cases a with
  | retain =>
    obtain ⟨rfl, hs⟩ := retain_error (refusal_onRegistry he)
    exact .inl ⟨rfl, hsame hretain hs⟩
  | newBlock => exact .inl (newBlock_error he)
  | release =>
    rcases Registry.release_error (ha r) (refusal_onRegistry he) with ⟨rfl, hs⟩ | ⟨k, rfl, htorn⟩
    · exact .inl ⟨rfl, hsame hrelease hs⟩
    · exact .inr ⟨k, _, rfl, hrelease, htorn⟩
  | unregister =>
    rcases Registry.unregister_error (ha r) (refusal_onRegistry he) with ⟨rfl, hs⟩ | ⟨k, rfl, htorn⟩
    · exact .inl ⟨rfl, hsame hunregister hs⟩
    · exact .inr ⟨k, _, rfl, hunregister, htorn⟩
  | copyDefinition =>
    rcases Registry.copyDefinition_error (ha r) (refusal_onRegistry he) with ⟨rfl, hs⟩ | ⟨hgrown, ⟨k, rfl, hk⟩, hbelow⟩
    · exact .inl ⟨rfl, hsame hcopy hs⟩
    · exact .inr ⟨k, _, rfl, hcopy, hgrown, hk, hbelow⟩

/-- In a program whose counts are exact, a fair operation meets no stale handle but its own. -/
theorem unchanged_of_fair (hp : p.Sound l) (hfair : (a.call r h).Fair p l) (he : a.error? r h p = some e) :
    p.after [a.call r h] = p := by
  rcases leaves_of_error (fun r => (hp.exact r).arena) he with ⟨-, hq⟩ | ⟨k, s, rfl, -, hleaves⟩
  · exact hq
  cases a with
  | retain => exact hleaves.elim
  | newBlock => exact hleaves.elim
  | release =>
    have hheld : 0 < l r h := hfair
    obtain ⟨x, hx⟩ : ∃ x, (p.registry r).holding? h = some x := by
      have hlast := hleaves.last
      unfold Registry.refCount at hlast
      cases hx : (p.registry r).holding? h with
      | none => simp [hx] at hlast
      | some x => exact ⟨x, rfl⟩
    have hreg := (sub_refs_add (count_singleton_le hheld)).symm ▸ hp.exact r
    rw [outside_add] at hreg
    obtain ⟨n, hok, -⟩ := hreg.release (Registry.holding?_eq_some.mp hx).1
    rw [refusal_onRegistry he] at hok
    cases hok
  | unregister =>
    have hlisted : h ∈ (p.registry r).palette := hfair
    obtain ⟨n, hok, -⟩ := (hp.unlisted hlisted).unregister (hp.listed r h hlisted)
    rw [refusal_onRegistry he] at hok
    cases hok
  | copyDefinition =>
    obtain ⟨-, -, k', hbelow, -⟩ := hleaves
    obtain ⟨x, hx⟩ : ∃ x, (p.registry r).holding? h = some x := by
      obtain ⟨c, ⟨d, hd, -⟩, -⟩ := Relation.TransGen.head'_iff.mp hbelow
      obtain ⟨x, hx, -⟩ := Registry.definition?_eq_some.mp hd
      exact ⟨x, hx⟩
    obtain ⟨h', hok, -⟩ := (hp.exact r).copyDefinition hx
    rw [refusal_onRegistry he] at hok
    cases hok

end

end Attempt

/-- After any calls, an operation that is answered with an error has changed nothing, or its handle was not
    stale and it met a stale one below. Then a release has freed the handle, whose last reference that was, and
    dropped references of some definitions below it; unregistering has done so too and taken the handle from the
    palette; and copying has put copies to use, and left all else as it was. Adding a reference and placing a
    block change nothing whenever they fail. After fair calls, so does every fair operation. -/
theorem failures_end_below (n : Nat) (calls : List Call) (a : Attempt) (r : RegistryId) (h : Handle) (e : Error)
    (he : a.error? r h ((start n).after calls) = some e) :
    let p := (start n).after calls
    let q := p.after [a.call r h]
    ((e = .stale h ∧ q = p) ∨ ∃ k s, e = .stale k ∧ q = p.setRegistry r s ∧ a.Leaves h k (p.registry r) s) ∧
      ((start n).Fits calls → (start n).FairRun 0 (calls ++ [a.call r h]) → q = p) := by
  intro p q
  refine ⟨Attempt.leaves_of_error (arena_after (arena_start n) calls) he, fun hfits hfair => ?_⟩
  rw [fairRun_append] at hfair
  exact Attempt.unchanged_of_fair (sound_after hfits hfair.1) hfair.2.1 he

/-- A definition that embeds another, which is then released by a caller who has handed it over. -/
def abandoning : List Call :=
  [.newCustom 0 { id := [] }, .newCustom 0 { id := [], inputs := [{ type := .argument, child := ⟨0, 1⟩ }] },
    .release 0 ⟨0, 1⟩]

theorem failures_end_below_abandoned :
    Attempt.error? .release 0 ⟨1, 1⟩ ((start 1).after abandoning) = some (.stale ⟨0, 1⟩) ∧
      ∃ s, ((start 1).after abandoning).after [.release 0 ⟨1, 1⟩] = ((start 1).after abandoning).setRegistry 0 s ∧
        Registry.Torn ⟨1, 1⟩ ⟨0, 1⟩ (((start 1).after abandoning).registry 0) s := by
  refine ⟨rfl, ?_⟩
  rcases (failures_end_below 1 abandoning .release 0 ⟨1, 1⟩ (.stale ⟨0, 1⟩) rfl).1 with ⟨herror, -⟩ | ⟨k, s, hk, hq, hs⟩
  · exact absurd herror (by decide)
  · cases hk
    exact ⟨s, hq, hs⟩

/-- A release fails and has freed the definition all the same. -/
theorem failed_release_frees :
    let p := (start 1).after abandoning
    let q := p.after [.release 0 ⟨1, 1⟩]
    Attempt.error? .release 0 ⟨1, 1⟩ p = some (.stale ⟨0, 1⟩) ∧
      (p.registry 0).refCount ⟨1, 1⟩ = 1 ∧ (q.registry 0).refCount ⟨1, 1⟩ = 0 ∧
      (p.registry 0).size = 1 ∧ (q.registry 0).size = 0 := by
  refine ⟨rfl, ?_⟩
  decide

end BlockEngine
