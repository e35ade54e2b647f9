/-
  BlockEngine.Proofs.Program.Handles — handles are never confused.

  Proved of every sequence of calls, as long as handles have not run out (`Program.Fits`):
  - `handles_never_confused`: in every registry the free list is exactly what is not in use, what is in
    use has references and is counted by the registry's size, every definition is put to use under a
    handle that never addressed anything before, and a handle whose record was freed stays stale.

  The callers need not behave: references may be dropped too often, and blocks be used after they were
  destroyed.
-/

import BlockEngine.Proofs.Program.Calls
import Mathlib.Data.List.Induction

namespace BlockEngine

namespace Registry

variable {r s : Registry} {h : Handle}

/-! ## Handles that an operation returns -/

/-- The registry grew to `s`, and `h` addresses the definition that was put to use last. -/
def Answers (r : Registry) (h : Handle) (s : Registry) : Prop :=
  ∃ (t : Registry) (d : Definition) (palette : List Handle) (terminator : Handle), Evolves false false r t ∧
    h = (t.alloc d).1 ∧ s = { (t.alloc d).2 with palette := palette, terminator := terminator }

theorem answers_alloc (d : Definition) (r : Registry) : Answers r (r.alloc d).1 (r.alloc d).2 :=
  ⟨r, d, _, _, .refl r, rfl, rfl⟩

theorem answers_register (d : Definition) (r : Registry) : Answers r (r.register d).1 (r.register d).2 :=
  ⟨r, _, _, _, .refl r, rfl, rfl⟩

theorem answers_newProcedure (name : Text) (ps : List Text) (r : Registry) :
    Answers r (r.newProcedure name ps).1 (r.newProcedure name ps).2 :=
  ⟨_, _, _, _, addParameters_evolves name 0 ps r, rfl, rfl⟩

theorem answers_copyTree {n : Nat} {h h' : Handle} {r s : Registry} (ho : copyTree n h r = some (.ok h', s)) :
    Answers r h' s := by
  cases n with
  | zero => cases ho
  | succ n =>
    rw [copyTree] at ho
    split at ho
    · cases ho
    · split at ho
      · have hi := copyInputs_evolves (fun _ _ _ => copyTree_evolves n _ _) _ _ ‹_›
        cases ho
        exact ⟨_, _, _, _, hi, rfl, rfl⟩
      · cases ho
      · cases ho

theorem answers_copyDefinition {h h' : Handle} {r : Registry} (ho : (r.copyDefinition h).1 = .ok h') :
    Answers r h' (r.copyDefinition h).2 := by
  unfold copyDefinition at ho ⊢
  rcases hc : copyTree (r.records.size + 1) h r with - | ⟨o, s⟩
  · simp [hc] at ho
  · simp only [hc, Option.getD_some] at ho ⊢
    exact answers_copyTree (ho ▸ hc)

theorem Answers.addressed (ha : r.Arena) (hr : Answers r h s) (hroom : s.Roomy) :
    ∃ k, r.kinds.size ≤ k ∧ s.kind? h = some k := by
  obtain ⟨t, d, palette, terminator, he, rfl, rfl⟩ := hr
  obtain ⟨i, hp⟩ := (ha.of_evolves he).placed d
  exact ⟨t.kinds.size, kinds_le_of_evolves he, kind?_eq_some.mpr ⟨_, hp.addressed ⟨hroom.unworn, hroom.size⟩, rfl⟩⟩

end Registry

namespace Call

def registry? : Call → Option RegistryId
  | register r _ | newCustom r _ | newProcedure r _ _ | copyDefinition r _ => some r
  | _ => none

theorem answers_edit {c : Call} {p : Program} {r : RegistryId} {h : Handle} (hc : c.registry? = some r)
    (hr : r < p.registries.size) (hh : (c.edit.run p).1 = .ok (some h)) :
    (p.registry r).Answers h ((c.edit.run p).2.registry r) := by
  have hset : ∀ x, (p.setRegistry r x).registry r = x := fun x => by simp [Program.registry_setRegistry, hr]
  cases c with
  | register r' d =>
    cases hc
    cases hh
    rw [show ((register r d).edit.run p).2 = p.setRegistry r ((p.registry r).register d).2 from rfl, hset]
    exact Registry.answers_register d _
  | newCustom r' d =>
    cases hc
    cases hh
    rw [show ((newCustom r d).edit.run p).2 = p.setRegistry r ((p.registry r).alloc d).2 from rfl, hset]
    exact Registry.answers_alloc d _
  | newProcedure r' name ps =>
    cases hc
    cases hh
    rw [show ((newProcedure r name ps).edit.run p).2 =
      p.setRegistry r ((p.registry r).newProcedure name ps).2 from rfl, hset]
    exact Registry.answers_newProcedure name ps _
  | copyDefinition r' h' =>
    cases hc
    have ho : ((p.registry r).copyDefinition h').1 = .ok h := by
      have hok : ((p.registry r).copyDefinition h').1.toOption = some h := by
        injection hh
      revert hok
      cases ((p.registry r).copyDefinition h').1 <;> simp [Except.toOption]
    rw [show ((copyDefinition r h').edit.run p).2 = p.setRegistry r ((p.registry r).copyDefinition h').2 from rfl,
      hset]
    exact Registry.answers_copyDefinition ho
  | _ => cases hc

end Call

namespace Program

variable {p : Program} {calls : List Call}

theorem later_of_freed {n : Nat} {r : RegistryId} {a b : List Call}
    (hf : ∀ i, timesFreed r i (start n) (a ++ b) < 2 ^ 32 - 1) :
    Registry.Later (((start n).after a).registry r) (((start n).after (a ++ b)).registry r) := by
  induction b using List.reverseRecOn with
  | nil =>
    rw [List.append_nil]
    exact .refl _
  | append_singleton b c ih =>
    rw [← List.append_assoc] at hf ⊢
    have hlast := Registry.Later.of_evolves (arena_after (arena_start n) (a ++ b) r)
      ((c.evolves_edit ((start n).after (a ++ b))).registry r)
    have he : (start n).after (a ++ b ++ [c]) = (c.edit.run ((start n).after (a ++ b))).2 := after_append ..
    rw [← he] at hlast
    refine (ih fun i => ?_).trans (hlast (unworn_after hf))
    have h := hf i
    rw [timesFreed_append] at h
    omega

theorem later_after {n : Nat} {a b : List Call} (hf : (start n).Fits (a ++ b)) (r : RegistryId) :
    Registry.Later (((start n).after a).registry r) (((start n).after (a ++ b)).registry r) := later_of_freed (hf.freed r)

/-- The call has put the definition `k` to use under the handle `h`, which addressed nothing before. -/
structure PutToUse (p : Program) (before : List Call) (c : Call) (r : RegistryId) (h : Handle) (k : KindId) : Prop where
  nonzero : h.isZero = false
  new : ((p.after before).registry r).kinds.size ≤ k
  kind : ((p.after (before ++ [c])).registry r).kind? h = some k
  unseen : ∀ earlier, earlier <+: before → ((p.after earlier).registry r).kind? h = none

theorem putToUse {n : Nat} {before : List Call} {c : Call} {r : RegistryId} {h : Handle} {k : KindId}
    (hf : (start n).Fits (before ++ [c])) (hnew : (((start n).after before).registry r).kinds.size ≤ k)
    (hk : (((start n).after (before ++ [c])).registry r).kind? h = some k) :
    (start n).PutToUse before c r h k := by
  have hn := (later_after hf r).not_issued (arena_after (arena_start n) before r) hnew hk
  refine ⟨?_, hnew, hk, fun earlier ⟨rest, he⟩ => ?_⟩
  · obtain ⟨x, hx, -⟩ := Registry.kind?_eq_some.mp hk
    simpa [Handle.isZero] using (Registry.holding?_eq_some.mp hx).1
  · cases hk' : (((start n).after earlier).registry r).kind? h with
    | none => rfl
    | some k' =>
      obtain ⟨x, hx, -⟩ := Registry.kind?_eq_some.mp hk'
      subst he
      exact absurd ((later_after hf.of_append r).issued (.of_holding hx)) hn

/-- A handle that was handed out and is stale stays so. -/
theorem stale_after {n : Nat} {a b c : List Call} (hf : (start n).Fits (a ++ b ++ c)) {r : RegistryId} {h : Handle}
    (hx : (((start n).after a).registry r).holding? h ≠ none)
    (hy : (((start n).after (a ++ b)).registry r).holding? h = none) :
    (((start n).after (a ++ b ++ c)).registry r).holding? h = none := by
  obtain ⟨x, hx⟩ := Option.ne_none_iff_exists'.mp hx
  have hi := (later_after hf.of_append r).issued (.of_holding hx)
  rw [← Registry.kind?_eq_none] at hy ⊢
  cases hk : (((start n).after (a ++ b ++ c)).registry r).kind? h with
  | none => rfl
  | some k =>
    rw [(later_after hf r).kind hi hk] at hy
    cases hy

theorem fits_of_length {n : Nat} {calls : List Call}
    (hrecords : ∀ r < n, (((start n).after calls).registry r).records.size ≤ 2 ^ 32)
    (hlength : calls.length < 2 ^ 32 - 1) : (start n).Fits calls where
  records r := by
    by_cases hr : r < n
    · exact hrecords r hr
    · rw [registry_of_le (by simpa [size_registries_after, start] using hr)]
      decide
  freed r i := Nat.lt_of_le_of_lt (timesFreed_le r i _ calls) hlength

end Program

open Program

/-- Over every sequence of calls, handles are never confused. In every registry `q`,
    - the free list has each record that is not in use once, a record in use has references, and the size
      counts the records in use;
    - each definition that the last call put to use has a handle, and no handle of it is zero or addressed
      anything at any earlier point; nor did the handle that the call returned;
    - a handle that addressed a definition, and then none, is stale. -/
theorem handles_never_confused (n : Nat) (calls : List Call) (hf : (start n).Fits calls) (r : RegistryId) :
    let q := ((start n).after calls).registry r
    q.free.Nodup ∧
    (∀ i : UInt32, i ∈ q.free ↔ i.toNat < q.records.size ∧ q.held? i.toNat = none) ∧
    (∀ i x, q.held? i = some x → 0 < x.refs) ∧
    q.size = q.inUse ∧
    (∀ before c, calls = before ++ [c] →
      (∀ k, (((start n).after before).registry r).kinds.size ≤ k → k < q.kinds.size →
        (∃ h, q.kind? h = some k) ∧ ∀ h, q.kind? h = some k → (start n).PutToUse before c r h k) ∧
      (∀ h, c.registry? = some r → r < n → (c.edit.run ((start n).after before)).1 = .ok (some h) →
        ∃ k, (start n).PutToUse before c r h k)) ∧
    (∀ a b d h, calls = a ++ b ++ d → (((start n).after a).registry r).holding? h ≠ none →
      (((start n).after (a ++ b)).registry r).holding? h = none →
      q.definition? h = none ∧ q.refCount h = 0 ∧ q.retain h = (.error (.stale h), q) ∧
        q.release h = (.error (.stale h), q)) := by
  intro q
  have ha : q.Arena := arena_after (arena_start n) calls r
  refine ⟨ha.free_nodup, ha.mem_free, fun i x => ha.counted, ha.size_eq (hf.records r), ?_, ?_⟩
  · rintro before c rfl
    have hb := arena_after (arena_start n) before r
    have hroom := roomy_after hf r
    have he : (start n).after (before ++ [c]) = (c.edit.run ((start n).after before)).2 := after_append ..
    constructor
    · intro k hk hk'
      have hev := (c.evolves_edit ((start n).after before)).registry r
      rw [← he] at hev
      exact ⟨Registry.exists_handle_of_evolves hb hev hroom hk hk', fun h hh => putToUse hf hk hh⟩
    · intro h hc hr hh
      have hans := Call.answers_edit hc (by simpa [size_registries_after, start] using hr) hh
      rw [← he] at hans
      obtain ⟨k, hk, hh⟩ := hans.addressed hb hroom
      exact ⟨k, putToUse hf hk hh⟩
  · rintro a b d h rfl hx hy
    have hz : q.holding? h = none := stale_after hf hx hy
    refine ⟨?_, ?_, ?_, ?_⟩
    · simp [Registry.definition?, Registry.kind?, hz]
    · simp [Registry.refCount, hz]
    · simp [Registry.retain, hz]
    · simp [Registry.release, hz]

def reuse : List Call :=
  [.newCustom 0 { id := [] }, .release 0 ⟨0, 1⟩, .release 0 ⟨0, 1⟩, .newCustom 0 { id := [] }]

theorem reuse_fits : (start 1).Fits reuse := fits_of_length (by decide) (by decide)

theorem handles_never_confused_reuse :
    (start 1).Fits reuse ∧ (((start 1).after reuse).registry 0).definition? ⟨0, 1⟩ = none ∧
      ∃ k, (start 1).PutToUse (reuse.take 3) (.newCustom 0 { id := [] }) 0 ⟨0, 2⟩ k := by
  have h := handles_never_confused 1 reuse reuse_fits 0
  refine ⟨reuse_fits, ?_, ?_⟩
  · exact (h.2.2.2.2.2 (reuse.take 1) [.release 0 ⟨0, 1⟩] (reuse.drop 2) ⟨0, 1⟩ rfl nofun rfl).1
  · exact (h.2.2.2.2.1 (reuse.take 3) (.newCustom 0 { id := [] }) rfl).2 ⟨0, 2⟩ rfl (by decide) rfl

end BlockEngine
