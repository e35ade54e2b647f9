/-
  BlockEngine.Proofs.Program.Layers — sequences of calls whose definitions embed what callers learned.

  A caller learns a handle that a call has returned, or that addressed something at some point between calls and
  so may have been read off a registry. Whatever else callers do, they may release what others hold: if they embed
  only what they learned, every registry stays layered.

  Proved of every sequence of calls, as long as no record was freed 2^32 - 1 times:
  - `layered_after`: every registry is layered.
  - `references_unwind`: a release always ends, and so does a copy; nothing is embedded below itself, and a copy
    shares no record with what it was made of.
-/

import BlockEngine.Proofs.Program.Handles
import BlockEngine.Proofs.Registry.Layers
import BlockEngine.Proofs.Registry.Unwinding

namespace BlockEngine

open Registry (Unwinds FreedOnce copyTree)
open Relation

/-! ## Edits -/

namespace Program

variable {p q s : Program}

/-- What was put to use in any registry embeds what was handed out by then. -/
def Layers (p q : Program) : Prop := ∀ r, Registry.Layers (p.registry r) (q.registry r)

theorem Layers.refl (p : Program) : Layers p p := fun _ => .refl _

theorem Layers.trans (h : Layers p q) (h' : Layers q s) : Layers p s := fun r => (h r).trans (h' r)

theorem Layers.of_eq (h : q.registries = p.registries) : Layers p q := by
  intro r
  rw [Program.registry, Program.registry, h]
  exact .refl _

theorem Layers.setRegistry {r : RegistryId} {x : Registry}
    (h : r < p.registries.size → Registry.Layers (p.registry r) x) : Layers p (p.setRegistry r x) := by
  intro r'
  rw [registry_setRegistry]
  split
  · rename_i hr
    rw [hr.1]
    exact h hr.2
  · exact .refl _

end Program

namespace Edit

variable {α β : Type}

/-- Whatever comes of it, an edit puts to use only what embeds what was handed out. -/
def Layers (e : Edit α) : Prop := ∀ p, Program.Layers p (e.run p).2

theorem layers_pure (a : α) : Layers (pure a : Edit α) := fun p => .refl p

theorem layers_crash (f : Fault) : Layers (crash f : Edit α) := fun p => .refl p

theorem layers_get : Layers (get : Edit Program) := fun p => .refl p

theorem layers_bind {e : Edit α} {f : α → Edit β} (he : e.Layers) (hf : ∀ a, (f a).Layers) : (e >>= f).Layers :=
  rel_bind .trans he hf

theorem layers_mapM {f : α → Edit β} (hf : ∀ a, (f a).Layers) (as : List α) : (as.mapM f).Layers :=
  rel_mapM .refl .trans hf as

theorem layers_onRegistry {r : RegistryId} {f : Registry → α × Registry} (h : ∀ x, Registry.Layers x (f x).2) :
    (onRegistry r f).Layers := fun p => .setRegistry fun _ => h (p.registry r)

/-- Blocks and chains are no part of a registry. -/
theorem layers_ofState {f : Program → α × Program} (h : ∀ p, (f p).2.registries = p.registries) :
    (ofState f).Layers := fun p => .of_eq (h p)

theorem layers_block (b : BlockId) : (block b).Layers := by
  refine layers_bind layers_get fun p => ?_
  split
  · exact layers_pure _
  · exact layers_crash _

theorem layers_newSlot (r : RegistryId) (id : Text) (i : Input) : (newSlot r id i).Layers := by
  unfold newSlot
  split
  · exact layers_pure _
  · exact layers_bind (layers_onRegistry fun _ => .alloc_plain rfl) fun _ => layers_pure _
  · exact layers_pure _

theorem layers_newBlock (r : RegistryId) (h : Handle) : (newBlock r h).Layers := by
  refine layers_bind (layers_onRegistry (.retain h)) fun o => ?_
  split
  · exact layers_pure _
  · refine layers_bind layers_get fun p => ?_
    dsimp only
    split
    · exact layers_crash _
    · refine layers_bind (layers_mapM (layers_newSlot r _) _) fun _ => ?_
      exact layers_bind (layers_ofState fun p => rfl) fun _ => layers_pure _

theorem layers_copySlot {copy : BlockId → Edit BlockId} (hc : ∀ b, (copy b).Layers) (r : RegistryId) (s : Slot) :
    (copySlot copy r s).Layers := by
  unfold copySlot
  split
  · split
    · exact layers_crash _
    · exact layers_bind (hc _) fun _ => layers_pure _
  · split
    · exact layers_pure _
    · refine layers_bind (layers_onRegistry (.copyDefinition _)) fun o => ?_
      split
      · exact layers_pure _
      · exact layers_crash _
  · exact layers_pure _

theorem layers_copyTree (n : Nat) (b : BlockId) (parent : Option BlockId) : (copyTree n b parent).Layers := by
  induction n generalizing b parent with
  | zero => exact layers_crash _
  | succ n ih =>
    refine layers_bind (layers_block b) fun x => ?_
    refine layers_bind (layers_onRegistry (.retain _)) fun o => ?_
    split
    · exact layers_crash _
    · refine layers_bind (layers_ofState fun p => rfl) fun c => ?_
      refine layers_bind (layers_mapM (layers_copySlot (fun b => ih b _) _) _) fun slots => ?_
      exact layers_bind (fun p => .of_eq rfl) fun _ => layers_pure _

theorem layers_copyBlock (b : BlockId) (parent : Option BlockId) : (copyBlock b parent).Layers :=
  layers_bind layers_get fun _ => layers_copyTree _ b parent

theorem layers_copyBlocks (bs : List BlockId) : (copyBlocks bs).Layers :=
  layers_bind (layers_mapM (fun b => layers_copyBlock b none) bs) fun _ => layers_ofState fun _ => rfl

theorem layers_copyRun (c : ChainId) (i : Int) : (copyRun c i).Layers := by
  refine layers_bind layers_get fun p => ?_
  split
  · exact layers_pure _
  · exact layers_bind (layers_copyBlocks _) fun _ => layers_pure _

theorem layers_copyTail (c : ChainId) (i : Int) : (copyTail c i).Layers := by
  refine layers_bind layers_get fun p => ?_
  dsimp only
  split
  · exact layers_pure _
  · exact layers_bind (layers_copyBlocks _) fun _ => layers_pure _

end Edit

/-! ## Calls -/

namespace Call

def added? : Call → Option (RegistryId × Definition)
  | register r d | newCustom r d => some (r, d)
  | _ => none

theorem layers_quiet {α : Type} {e : Edit α} (he : e.Layers) : (quiet e).Layers :=
  Edit.layers_bind he fun _ => Edit.layers_pure _

/-- A call that puts records to use adds layers, if what the caller adds embeds what was handed out. -/
theorem layers_edit {c : Call} {p : Program} (hc : c.frees = false)
    (hd : ∀ r d, c.added? = some (r, d) → r < p.registries.size → ∀ h ∈ d.children, (p.registry r).Issued h) :
    p.Layers (c.edit.run p).2 := by
  cases c with
  | register r d =>
    refine .setRegistry fun hr => ?_
    exact Registry.Layers.register fun _ => hd r d rfl hr
  | newCustom r d =>
    refine .setRegistry fun hr => ?_
    exact (Registry.Layers.refl _).alloc fun _ _ => hd r d rfl hr
  | newProcedure r name ps => exact .setRegistry fun _ => .newProcedure name ps _
  | copyDefinition r h => exact .setRegistry fun _ => .copyDefinition h _
  | retain r h => exact layers_quiet (Edit.layers_onRegistry (.retain h)) p
  | newBlock r h => exact layers_quiet (Edit.layers_newBlock r h) p
  | copyBlock b parent => exact layers_quiet (Edit.layers_copyBlock b parent) p
  | copyRun c i => exact layers_quiet (Edit.layers_copyRun c i) p
  | copyTail c i => exact layers_quiet (Edit.layers_copyTail c i) p
  | _ => cases hc

end Call

namespace Program

/-- The handle was returned by a call, or addressed something between two of them. -/
def Learned (p : Program) (calls : List Call) (r : RegistryId) (h : Handle) : Prop :=
  (∃ before c, before ++ [c] <+: calls ∧ c.registry? = some r ∧ (c.edit.run (p.after before)).1 = .ok (some h)) ∨
    ∃ before, before <+: calls ∧ ((p.after before).registry r).holding? h ≠ none

/-- Callers embed only what they learned. -/
def EmbedsLearned (p : Program) (calls : List Call) : Prop :=
  ∀ before c r d, before ++ [c] <+: calls → c.added? = some (r, d) → ∀ h ∈ d.children, p.Learned before r h

theorem EmbedsLearned.of_append {p : Program} {a b : List Call} (hk : p.EmbedsLearned (a ++ b)) : p.EmbedsLearned a :=
  fun before c r d hbefore => hk before c r d (hbefore.trans (List.prefix_append a b))

/-- What callers learned was handed out. -/
theorem Learned.issued {n : Nat} {calls : List Call} {r : RegistryId} {h : Handle} (hr : r < n)
    (hf : ∀ i, timesFreed r i (start n) calls < 2 ^ 32 - 1) (hk : (start n).Learned calls r h) :
    (((start n).after calls).registry r).Issued h := by
  rcases hk with ⟨before, c, ⟨rest, rfl⟩, hc, hh⟩ | ⟨before, ⟨rest, rfl⟩, hx⟩
  · refine (later_of_freed hf).issued ?_
    have hanswer := Call.answers_edit hc (by simpa [size_registries_after, start] using hr) hh
    have hb := arena_after (arena_start n) before r
    have hw : (((start n).after (before ++ [c])).registry r).Unworn := unworn_after fun i => by
      have hlt := hf i
      rw [timesFreed_append] at hlt
      omega
    rw [show (start n).after (before ++ [c]) = (c.edit.run ((start n).after before)).2 from after_append ..] at hw ⊢
    generalize ((c.edit.run ((start n).after before)).2).registry r = s at hanswer hw ⊢
    obtain ⟨t, d, palette, terminator, he, rfl, rfl⟩ := hanswer
    exact Registry.alloc_issued (hb.of_evolves he) hw
  · obtain ⟨x, hx⟩ := Option.ne_none_iff_exists'.mp hx
    exact (later_of_freed hf).issued (.of_holding hx)

/-- In every state that is reached by embedding what was learned, registries are layered. -/
theorem layered_after {n : Nat} {calls : List Call} (hf : ∀ r i, timesFreed r i (start n) calls < 2 ^ 32 - 1)
    (hk : (start n).EmbedsLearned calls) (r : RegistryId) : (((start n).after calls).registry r).Layered := by
  induction calls using List.reverseRecOn generalizing r with
  | nil =>
    rw [show (start n).after [] = start n from rfl, registry_start]
    exact .new
  | append_singleton before c ih =>
    have hf' : ∀ r i, timesFreed r i (start n) before < 2 ^ 32 - 1 := fun r i => by
      have hlt := hf r i
      rw [timesFreed_append] at hlt
      omega
    have hl := ih hf' hk.of_append
    have hb := arena_after (arena_start n) before
    have hw := unworn_after (hf r)
    rw [show (start n).after (before ++ [c]) = (c.edit.run ((start n).after before)).2 from after_append ..] at hw ⊢
    cases hc : c.frees with
    | true =>
      have he := (c.evolves_edit ((start n).after before)).registry r
      rw [hc] at he
      exact (hl r).of_frees (hb r) he hw
    | false =>
      have hlayers : ((start n).after before).Layers _ := c.layers_edit hc fun r' d hd hr h hh => by
        have hr : r' < n := by simpa [size_registries_after, start] using hr
        exact (hk before c r' d (List.prefix_refl _) hd h hh).issued hr (hf' r')
      exact (hlayers r).layered (hb r) hw (hl r)

end Program

open Program

/-- A release of a definition in use ends: whatever is embedded in what, there is one way to go, it drops some of
    all references and frees no record twice. After any calls whose callers embed what they learned, nothing is embedded
    below itself; so a copy ends too, and where it succeeds all of it is in records that were not in use before. -/
theorem references_unwind :
    (∀ (r : Registry) (h : Handle) (x : Holding), r.Counted → r.holding? h = some x →
      ∃ fs e s, Unwinds [h] r fs e s ∧ (∀ fs' e' s', Unwinds [h] r fs' e' s' → fs' = fs ∧ e' = e ∧ s' = s) ∧
        r.release h = (e.elim (.ok (x.refs - 1)) .error, s) ∧ s.totalRefs < r.totalRefs ∧ FreedOnce r s fs) ∧
    ∀ (n : Nat) (calls : List Call), (∀ r i, timesFreed r i (start n) calls < 2 ^ 32 - 1) →
      (start n).EmbedsLearned calls → ∀ r,
        let q := ((start n).after calls).registry r
        (∀ h, ¬ q.Below h h) ∧
        (∀ h m, q.records.size < m → copyTree m h q = some (q.copyDefinition h)) ∧
        (∀ h h' s, q.copyDefinition h = (.ok h', s) → s.records.size ≤ 2 ^ 32 →
          ∀ k', ReflTransGen s.Embeds h' k' →
            (∃ x, s.holding? k' = some x) ∧ q.held? k'.index.toNat = none ∧
              ∀ k x, ReflTransGen q.Embeds h k → q.holding? k = some x → k'.index ≠ k.index) := by
  refine ⟨fun r h x hr hx => ?_, fun n calls hf hk r => ?_⟩
  · obtain ⟨fs, e, hu, hanswer⟩ := Registry.release_unwinds hr hx
    refine ⟨fs, e, (r.release h).2, hu, fun fs' e' s' hu' => hu'.deterministic hu, ?_, hu.totalRefs_lt hr hx, hu.freed_once⟩
    rw [← hanswer]
  · intro q
    have ha : q.Arena := arena_after (arena_start n) calls r
    have hw : q.Unworn := unworn_after (hf r)
    have hl : q.Layered := layered_after hf hk r
    refine ⟨hl.acyclic, fun h m hm => hl.copyDefinition_total ha hw h hm, fun h h' s ho hsize k' hk' => ?_⟩
    have hs : s.Unworn := by
      have he := Registry.copyDefinition_evolves h q
      rw [ho] at he
      exact hw.grows ha he
    obtain ⟨hnot, x, hx⟩ := ((Registry.copyDefinition_apart ha ho ⟨hs, hsize⟩).reach hk').unused
    refine ⟨⟨x, hx⟩, hnot, fun k y _ hy heq => ?_⟩
    rw [heq, (Registry.holding?_eq_some.mp hy).2.2] at hnot
    cases hnot

/-- A definition that embeds itself, twice, and has one reference. -/
def knot : Registry :=
  { kinds := #[{ id := [], inputs := [{ type := .argument, child := ⟨0, 1⟩ }, { type := .argument, child := ⟨0, 1⟩ }] }]
    records := #[⟨1, some ⟨0, 1⟩⟩] }

def twoLayers : List Call :=
  [.newCustom 0 { id := [] }, .newCustom 0 { id := [], inputs := [{ type := .argument, child := ⟨0, 1⟩ }] }]

theorem twoLayers_known : (start 1).EmbedsLearned twoLayers := by
  rintro before c r d ⟨rest, hrest⟩ hd h hh
  match before with
  | [] =>
    cases hrest
    cases hd
    cases hh
  | [b] =>
    cases hrest
    cases hd
    have hh : h = ⟨0, 1⟩ := by simpa [Definition.children, Handle.isZero] using hh
    subst hh
    exact .inl ⟨[], .newCustom 0 { id := [] }, List.prefix_refl _, rfl, rfl⟩
  | _ :: _ :: _ =>
    have hlength := congrArg List.length hrest
    simp [twoLayers] at hlength

theorem references_unwind_embedding :
    (∃ fs e s, Unwinds [⟨0, 1⟩] knot fs e s ∧ knot.release ⟨0, 1⟩ = (e.elim (.ok 0) .error, s) ∧ s.totalRefs < 1) ∧
      (let q := ((start 1).after twoLayers).registry 0
      ¬ q.Below ⟨1, 1⟩ ⟨1, 1⟩ ∧
        ∃ s, q.copyDefinition ⟨1, 1⟩ = (.ok ⟨3, 1⟩, s) ∧ q.held? 3 = none ∧ ∃ x, s.holding? ⟨3, 1⟩ = some x) := by
  obtain ⟨hrelease, hcopy⟩ := references_unwind
  have hcounted : knot.Counted := by
    intro i x hx
    have hi := Registry.lt_size_of_held? hx
    obtain rfl : i = 0 := Nat.lt_one_iff.mp hi
    cases hx
    exact Nat.one_pos
  have hfreed : ∀ r i, timesFreed r i (start 1) twoLayers < 2 ^ 32 - 1 :=
    fun r i => Nat.lt_of_le_of_lt (timesFreed_le r i _ _) (by decide)
  obtain ⟨fs, e, s, hu, -, hanswer, hless, -⟩ := hrelease knot ⟨0, 1⟩ ⟨0, 1⟩ hcounted rfl
  obtain ⟨hacyclic, -, hapart⟩ := hcopy 1 twoLayers hfreed twoLayers_known 0
  obtain ⟨hheld, hunused, -⟩ := hapart ⟨1, 1⟩ ⟨3, 1⟩ _ rfl (by decide) ⟨3, 1⟩ .refl
  exact ⟨⟨fs, e, s, hu, hanswer, hless⟩, hacyclic _, _, rfl, hunused, hheld⟩

end BlockEngine
