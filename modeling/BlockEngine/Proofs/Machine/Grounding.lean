/-
  BlockEngine.Proofs.Machine.Grounding — lists lie in cells that were handed out.

  A machine is grounded if all that its stacks and its host hold is stored in cells that storage has handed
  out, and nothing was freed elsewhere. A native is honest if it speaks of no other cells than it was told of,
  by its operands or in reply to its requests; one that made up a cell could free what another one holds.

  Work is judged by the number of cells that are known when it starts. That number only grows, so what is known
  once stays known, whatever comes in between.

  Proved:
  - `answer_grounds`: a request about values that are known leaves a machine grounded, and its reply tells of
    values in cells that were handed out.
  - `perform_grounds`: so does all that an honest native asks for.
-/

import BlockEngine.Proofs.Machine.Paced
import BlockEngine.Proofs.Value.Contents

namespace BlockEngine

open Storage
open Value (StoredIn)

abbrev Value.StoredBelow (n : Cell) (v : Value) : Prop := v.Everywhere (StoredIn (· < n))

theorem Value.StoredBelow.mono {n k : Cell} {v : Value} (h : v.StoredBelow n) (hle : n ≤ k) : v.StoredBelow k :=
  storedIn_mono (fun _ hc => Nat.lt_of_lt_of_le hc hle) h

@[simp] theorem Value.storedBelow_scalar (n : Cell) (o : Ownership) (s : Scalar) : (Value.scalar o s).StoredBelow n :=
  (everywhere_scalar o s).mpr trivial

namespace Storage

variable {n : Cell} (s : Storage)

mutual

theorem storedBelow_view : ∀ {v : Value}, v.StoredBelow n → (s.view v).StoredBelow n
  | .scalar o x, _ => by
    rw [view]
    exact Value.storedBelow_scalar n o x
  | .list o c items, h => by
    obtain ⟨hself, hitems⟩ := (Value.everywhere_list o c items).mp h
    rw [view]
    exact (Value.everywhere_list o c _).mpr ⟨hself, storedBelow_viewItems c 0 hitems⟩

theorem storedBelow_viewItems (c : Cell) : ∀ (i : Nat) {vs : List Value}, (∀ v ∈ vs, v.StoredBelow n) →
    ∀ w ∈ s.viewItems c i vs, w.StoredBelow n
  | i, [], _ => by
    rw [viewItems]
    simp
  | i, v :: vs, h => by
    obtain ⟨hfirst, hrest⟩ := List.forall_mem_cons.mp h
    rw [viewItems]
    refine List.forall_mem_cons.mpr ⟨?_, storedBelow_viewItems c (i + 1) hrest⟩
    split
    · exact Value.storedBelow_scalar n _ _
    · exact storedBelow_view hfirst

end

theorem storedBelow_copy (v : Value) : (s.copy v).1.StoredBelow (s.copy v).2.next :=
  storedIn_mono (fun _ hc => hc.2) (s.storedIn_copy v)

theorem storedBelow_copyAll (vs : List Value) : ∀ w ∈ (s.copyAll vs).1, w.StoredBelow (s.copyAll vs).2.next := by
  induction vs generalizing s with
  | nil =>
    rw [copyAll]
    simp
  | cons v vs ih =>
    rw [copyAll]
    exact List.forall_mem_cons.mpr ⟨(s.storedBelow_copy v).mono (extends_copyAll vs _).next, ih _⟩

theorem frees_free {v : Value} (hv : v.StoredBelow n) : Frees n s (s.free v) := by
  refine ⟨next_free v s, fun c hc i => isEmptied_free v s i (storedIn_mono ?_ hv)⟩
  rintro d hd rfl
  exact absurd hd (Nat.not_lt.mpr hc)

end Storage

/-! ## What stacks hold -/

namespace Table

variable {α : Type}

theorem mem_set {name : Text} {x : Text × α} {a : α} : ∀ {t : Table α}, x ∈ t.set name a → x ∈ t ∨ x.2 = a
  | [], h => .inr (by rw [List.mem_singleton.mp h])
  | (l, b) :: rest, h => by
    unfold Table.set at h
    split at h
    · rcases List.mem_cons.mp h with rfl | hrest
      · exact .inr rfl
      · exact .inl (List.mem_cons_of_mem _ hrest)
    · rcases List.mem_cons.mp h with rfl | hrest
      · exact .inl List.mem_cons_self
      · exact (mem_set hrest).imp (List.mem_cons_of_mem _) id

end Table

theorem Exec.held_subset {x y : Exec} (hb : y.bindings ⊆ x.bindings) (ho : y.operands ⊆ x.operands)
    (hc : y.control ⊆ x.control) (hr : y.calls.filterMap (·.result) ⊆ x.calls.filterMap (·.result)) :
    y.held ⊆ x.held := by
  intro v hv
  simp only [held, List.mem_append] at hv ⊢
  rcases hv with ((hv | hv) | hv) | hv
  · exact .inl (.inl (.inl (List.map_subset _ hb hv)))
  · exact .inl (.inl (.inr (ho hv)))
  · exact .inl (.inr (List.map_subset _ hc hv))
  · exact .inr (hr hv)

/-- Where a frame is changed so that it has no new result, no frame has one. -/
theorem results_modify {calls : List CallFrame} (i : Nat) {f : CallFrame → CallFrame}
    (hf : ∀ x v, (f x).result = some v → x.result = some v) :
    (calls.modify i f).filterMap (·.result) ⊆ calls.filterMap (·.result) := by
  intro v hv
  obtain ⟨x, hx, hresult⟩ := List.mem_filterMap.mp hv
  obtain ⟨j, hj⟩ := List.mem_iff_getElem?.mp hx
  rw [List.getElem?_modify] at hj
  obtain ⟨y, hy, rfl⟩ := Option.map_eq_some_iff.mp hj
  refine List.mem_filterMap.mpr ⟨y, List.mem_of_getElem? hy, ?_⟩
  split at hresult
  · exact hf y v hresult
  · exact hresult

/-! ## Grounded machines -/

namespace Machine

/-- All that the stacks and the host hold is stored in cells that were handed out, as is all that was freed. -/
structure Grounded (m : Machine) : Prop where
  sound : m.storage.Sound
  held : ∀ v ∈ m.exec.held, v.StoredBelow m.storage.next
  kept : ∀ x ∈ m.host.kept, x.2.StoredBelow m.storage.next

/-- A machine that was not used is grounded. -/
theorem grounded_idle (p : Program) (limits : Limits) : Grounded { program := p, exec := { limits } } :=
  ⟨sound_new, by simp [Exec.held], by simp⟩

section

variable {m k : Machine} (hm : m.Grounded)
include hm

/-- Cells were handed out, and what is held now was held before or is stored there. -/
theorem Grounded.extended (hs : Extends m.storage k.storage) (hkept : k.host.kept = m.host.kept)
    (hheld : ∀ v ∈ k.exec.held, v ∈ m.exec.held ∨ v.StoredBelow k.storage.next) : k.Grounded := by
  refine ⟨hs.sound hm.sound, fun v hv => ?_, fun x hx => ?_⟩
  · rcases hheld v hv with hold | hnew
    · exact (hm.held v hold).mono hs.next
    · exact hnew
  · rw [hkept] at hx
    exact (hm.kept x hx).mono hs.next

/-- Something was freed, and what is held now was held before or is stored where it was. -/
theorem Grounded.freed (hs : Frees m.storage.next m.storage k.storage) (hkept : k.host.kept = m.host.kept)
    (hheld : ∀ v ∈ k.exec.held, v ∈ m.exec.held ∨ v.StoredBelow m.storage.next) : k.Grounded := by
  refine ⟨hs.sound hm.sound (Nat.le_refl _), fun v hv => ?_, fun x hx => ?_⟩
  · rw [hs.next]
    exact (hheld v hv).elim (hm.held v) id
  · rw [hkept] at hx
    rw [hs.next]
    exact hm.kept x hx

/-- Storage is as it was. -/
theorem Grounded.same (hs : k.storage = m.storage) (hkept : k.host.kept = m.host.kept)
    (hheld : ∀ v ∈ k.exec.held, v ∈ m.exec.held ∨ v.StoredBelow m.storage.next) : k.Grounded :=
  hm.freed (hs ▸ .refl _ _) hkept hheld

end

end Machine

/-! ## Honest natives -/

namespace Request

def values : Request → List Value
  | .finish v => [v]
  | .declare _ v => [v]
  | .assign _ v => [v]
  | .pushData v => [v]
  | .call _ args => args
  | .view v => [v]
  | .copy v => [v]
  | .newList _ items => items
  | .place v => [v]
  | .free v => [v]
  | .keep _ v => [v]
  | _ => []

def told : (r : Request) → r.Reply → List Value
  | .fetch _, v => v.toList
  | .popData, v => [v]
  | .argument _, v => [v]
  | .call _ _, v => [v]
  | .view _, v => [v]
  | .copy _, v => [v]
  | .newList _ _, v => [v]
  | .place _, v => [v]
  | .kept _, v => v.toList
  | _, _ => []

end Request

namespace Proc

variable {α β : Type}

/-- Of `n` cells that are known at first, and those that replies tell of, the procedure speaks and no others; and
    its result is as said. -/
def Honest (n : Cell) (Q : Cell → α → Prop) : Proc α → Prop
  | .done a => Q n a
  | .crash _ => True
  | .ask r go => (∀ v ∈ r.values, v.StoredBelow n) ∧
      ∀ k reply, n ≤ k → (∀ v ∈ r.told reply, v.StoredBelow k) → (go reply).Honest k Q

end Proc

/-- The native speaks of no cells but those of its operands and those it is told of. -/
def Native.Honest (native : Native) : Prop :=
  ∀ n args, (∀ v ∈ args, v.StoredBelow n) → (native args).Honest n fun k v => v.StoredBelow k

def Program.Honest (p : Program) : Prop := ∀ b native, (p.kindOf b).native = some native → native.Honest

structure Machine.Rooted (m : Machine) : Prop where
  grounded : m.Grounded
  honest : m.program.Honest

/-! ## Work on grounded machines -/

namespace Outcome

variable {α β : Type} {n k : Cell} {Q : Cell → α → Prop} {R : Cell → β → Prop}

/-- Wherever the work is seen the machine is rooted, as long as its host leaves it so and takes no cells back; no
    cell is taken back by the work, and its result is as said of the cells that were handed out by then. -/
def Grounds (n : Cell) (Q : Cell → α → Prop) : Outcome α → Prop
  | .done a m => m.Rooted ∧ n ≤ m.storage.next ∧ Q m.storage.next a
  | .fault _ m => m.Rooted ∧ n ≤ m.storage.next
  | .paused m resume => m.Rooted ∧ ∀ k, k.Rooted → m.storage.next ≤ k.storage.next → (resume k).Grounds n Q
  | .starved m => m.Rooted

theorem Grounds.bind {o : Outcome α} {f : α → Machine → Outcome β} (h : o.Grounds n Q)
    (hf : ∀ a m, m.Rooted → n ≤ m.storage.next → Q m.storage.next a → (f a m).Grounds n R) :
    (o.bind f).Grounds n R := by
  induction o with
  | done a m => exact hf a m h.1 h.2.1 h.2.2
  | fault x m => exact h
  | starved m => exact h
  | paused m resume ih => exact ⟨h.1, fun k hk hle => ih k (h.2 k hk hle)⟩

theorem Grounds.imp {Q' : Cell → α → Prop} {o : Outcome α} (h : o.Grounds n Q) (hQ : ∀ k a, Q k a → Q' k a) :
    o.Grounds n Q' := by
  induction o with
  | done a m => exact ⟨h.1, h.2.1, hQ _ a h.2.2⟩
  | fault x m => exact h
  | starved m => exact h
  | paused m resume ih => exact ⟨h.1, fun k hk hle => ih k (h.2 k hk hle)⟩

theorem Grounds.weaken {o : Outcome α} (h : o.Grounds k Q) (hle : n ≤ k) : o.Grounds n Q := by
  induction o with
  | done a m => exact ⟨h.1, Nat.le_trans hle h.2.1, h.2.2⟩
  | fault x m => exact ⟨h.1, Nat.le_trans hle h.2⟩
  | starved m => exact h
  | paused m resume ih => exact ⟨h.1, fun l hl hnext => ih l (h.2 l hl hnext)⟩

theorem Grounds.attempt {o : Outcome α} (h : o.Grounds n Q) :
    o.attempt.Grounds n fun k r => ∀ a, r = .ok a → Q k a := by
  induction o with
  | done a m =>
    refine ⟨h.1, h.2.1, fun b hb => ?_⟩
    cases hb
    exact h.2.2
  | fault x m => exact ⟨h.1, h.2, nofun⟩
  | starved m => exact h
  | paused m resume ih => exact ⟨h.1, fun k hk hle => ih k (h.2 k hk hle)⟩

end Outcome

namespace Work

variable {α β : Type} {n : Cell}

/-- The work is done on a rooted machine of which `n` cells are known, and leaves it rooted. -/
def Grounds (n : Cell) (Q : Cell → α → Prop) (w : Work α) : Prop :=
  ∀ m : Machine, m.Rooted → n ≤ m.storage.next → (w m).Grounds n Q

abbrev Sober (n : Cell) (w : Work α) : Prop := w.Grounds n fun _ _ => True

section

variable {Q : Cell → α → Prop} {R : Cell → β → Prop}

theorem grounds_bind {w : Work α} {f : α → Work β} (hw : w.Grounds n Q)
    (hf : ∀ k a, n ≤ k → Q k a → (f a).Grounds k R) : (w >>= f).Grounds n R := by
  intro m hm hle
  rw [bind_apply]
  exact (hw m hm hle).bind fun a k hk hnext ha => (hf _ a hnext ha k hk (Nat.le_refl _)).weaken hnext

theorem Grounds.imp {R : Cell → α → Prop} {w : Work α} (h : w.Grounds n Q) (hQ : ∀ k a, Q k a → R k a) :
    w.Grounds n R := fun m hm hle => (h m hm hle).imp hQ

theorem grounds_pure {a : α} (h : ∀ k, n ≤ k → Q k a) : (Pure.pure a : Work α).Grounds n Q :=
  fun _ hm hle => ⟨hm, hle, h _ hle⟩

theorem sober_pure (a : α) : (Pure.pure a : Work α).Sober n := grounds_pure fun _ _ => trivial

theorem grounds_read {f : Machine → α} (h : ∀ m, m.Rooted → n ≤ m.storage.next → Q m.storage.next (f m)) :
    (read f).Grounds n Q := fun m hm hle => ⟨hm, hle, h m hm hle⟩

theorem sober_read (f : Machine → α) : (read f).Sober n := grounds_read fun _ _ _ => trivial

theorem grounds_crash (f : Fault) : (crash f : Work α).Grounds n Q := fun _ hm hle => ⟨hm, hle⟩

theorem grounds_starve : (starve : Work α).Grounds n Q := fun _ hm _ => hm

theorem grounds_waitingAt (wait : Machine → Bool) {w : Work α} (h : w.Grounds n Q) :
    (waitingAt wait w).Grounds n Q := by
  intro m hm hle
  unfold waitingAt
  split
  · exact ⟨hm, fun k hk hnext => h k hk (Nat.le_trans hle hnext)⟩
  · exact h m hm hle

end

/-! ## Effects -/

section

variable {Q : Cell → α → Prop} {m k : Machine} {a : α} (hm : m.Rooted) (hle : n ≤ m.storage.next)
  (hp : k.program = m.program) (hkept : k.host.kept = m.host.kept)
include hm hle hp hkept

theorem grounds_extended (hs : Extends m.storage k.storage)
    (hheld : ∀ v ∈ k.exec.held, v ∈ m.exec.held ∨ v.StoredBelow k.storage.next) (ha : Q k.storage.next a) :
    (Outcome.done a k).Grounds n Q :=
  ⟨⟨hm.grounded.extended hs hkept hheld, hp.symm ▸ hm.honest⟩, Nat.le_trans hle hs.next, ha⟩

theorem grounds_freed (hs : Frees m.storage.next m.storage k.storage)
    (hheld : ∀ v ∈ k.exec.held, v ∈ m.exec.held ∨ v.StoredBelow n) (ha : Q m.storage.next a) :
    (Outcome.done a k).Grounds n Q := by
  have hrooted : k.Rooted :=
    ⟨hm.grounded.freed hs hkept fun v hv => (hheld v hv).imp id (·.mono hle), hp.symm ▸ hm.honest⟩
  have hnext := hs.next
  exact ⟨hrooted, hnext.symm ▸ hle, hnext.symm ▸ ha⟩

theorem grounds_same (hs : k.storage = m.storage) (hheld : ∀ v ∈ k.exec.held, v ∈ m.exec.held ∨ v.StoredBelow n)
    (ha : Q m.storage.next a) : (Outcome.done a k).Grounds n Q :=
  grounds_freed hm hle hp hkept (hs ▸ .refl _ _) hheld ha

end

section

variable {v : Value}

/-- What is handed out in fresh cells is stored there. -/
theorem grounds_onStorage {Q : Cell → α → Prop} {f : Storage → α × Storage} (hf : ∀ s, Extends s (f s).2)
    (hQ : ∀ s, n ≤ s.next → Q (f s).2.next (f s).1) : (onStorage f).Grounds n Q := fun m hm hle =>
  grounds_extended hm hle rfl rfl (hf m.storage) (fun _ => .inl) (hQ m.storage hle)

theorem grounds_copy (v : Value) : (onStorage (·.copy v)).Grounds n fun k w => w.StoredBelow k :=
  grounds_onStorage (Storage.extends_copy · v) fun s _ => s.storedBelow_copy v

theorem sober_release (hv : v.StoredBelow n) : (release v).Sober n := fun m hm hle =>
  grounds_freed hm hle rfl rfl (frees_release (hv.mono hle) m.storage) (fun _ => .inl) trivial

theorem sober_releaseAll {vs : List Value} (hvs : ∀ v ∈ vs, v.StoredBelow n) :
    (modify fun m => { m with storage := m.storage.releaseAll vs }).Sober n := fun m hm hle =>
  grounds_freed hm hle rfl rfl (frees_releaseAll (fun v hv => (hvs v hv).mono hle) m.storage) (fun _ => .inl) trivial

/-- Work that changes nothing of what is held. -/
theorem sober_modify {f : Machine → Machine} (hp : ∀ m, (f m).program = m.program)
    (hkept : ∀ m, (f m).host.kept = m.host.kept) (hs : ∀ m, (f m).storage = m.storage)
    (hheld : ∀ m, (f m).exec.held = m.exec.held) : (modify f).Sober n := fun m hm hle =>
  grounds_same hm hle (hp m) (hkept m) (hs m) (fun _ hu => .inl (hheld m ▸ hu)) trivial

theorem sober_pushOperand (hv : v.StoredBelow n) : (pushOperand v).Sober n := by
  intro m hm hle
  unfold pushOperand
  split
  · refine grounds_same hm hle rfl rfl rfl (fun u hu => ?_) trivial
    simp only [Exec.held, List.mem_append, List.mem_cons] at hu ⊢
    rcases hu with ((hu | rfl | hu) | hu) | hu <;> tauto
  · exact ⟨hm, hle⟩

theorem sober_pushControl {f : ControlFrame} (hf : f.value.StoredBelow n) : (pushControl f).Sober n := by
  intro m hm hle
  unfold pushControl
  split
  · refine grounds_same hm hle rfl rfl rfl (fun u hu => ?_) trivial
    simp only [Exec.held, List.mem_append, List.map_cons, List.mem_cons] at hu ⊢
    rcases hu with (hu | rfl | hu) | hu <;> tauto
  · exact ⟨hm, hle⟩

theorem sober_pushVariable {x : Variable} (hx : x.value.StoredBelow n) : (pushVariable x).Sober n := by
  intro m hm hle
  unfold pushVariable
  split
  · refine grounds_same hm hle rfl rfl rfl (fun u hu => ?_) trivial
    simp only [Exec.held, List.mem_append, List.map_cons, List.mem_cons] at hu ⊢
    rcases hu with (((rfl | hu) | hu) | hu) | hu <;> tauto
  · exact ⟨hm, hle⟩

theorem sober_pushCall (args : List Value) : (pushCall { args := args }).Sober n := by
  intro m hm hle
  unfold pushCall
  split
  · exact grounds_same hm hle rfl rfl rfl (fun u hu => .inl hu) trivial
  · exact ⟨hm, hle⟩

theorem grounds_popBody : popBody.Grounds n fun k frame => frame.2.StoredBelow k := by
  intro m hm hle
  unfold popBody
  split
  next i v rest hcontrol =>
    have hrest : ({ m.exec with control := rest } : Exec).held ⊆ m.exec.held :=
      Exec.held_subset (.refl _) (.refl _) (by simp [hcontrol]) (.refl _)
    have hv : v ∈ m.exec.held := by simp [Exec.held, hcontrol, ControlFrame.value]
    exact grounds_same hm hle rfl rfl rfl (fun _ hu => .inl (hrest hu)) (hm.grounded.held v hv)
  next v rest hcontrol =>
    have hrest : ({ m.exec with control := rest } : Exec).held ⊆ m.exec.held :=
      Exec.held_subset (.refl _) (.refl _) (by simp [hcontrol]) (.refl _)
    exact ⟨⟨hm.grounded.same rfl rfl fun _ hu => .inl (hrest hu), hm.honest⟩, hle⟩
  · exact ⟨hm, hle⟩

theorem grounds_popData : popData.Grounds n fun k v => v.StoredBelow k := by
  intro m hm hle
  unfold popData
  split
  next v rest hcontrol =>
    have hrest : ({ m.exec with control := rest } : Exec).held ⊆ m.exec.held :=
      Exec.held_subset (.refl _) (.refl _) (by simp [hcontrol]) (.refl _)
    have hv : v ∈ m.exec.held := by simp [Exec.held, hcontrol, ControlFrame.value]
    exact grounds_same hm hle rfl rfl rfl (fun _ hu => .inl (hrest hu)) (hm.grounded.held v hv)
  · exact ⟨hm, hle⟩

theorem sober_popCall : popCall.Sober n := by
  intro m hm hle
  unfold popCall
  split
  next f rest hcalls =>
    have hrest : ({ m.exec with calls := rest } : Exec).held ⊆ m.exec.held := by
      refine Exec.held_subset (.refl _) (.refl _) (.refl _) ?_
      rw [hcalls]
      exact List.filterMap_subset _ (List.subset_cons_self f rest)
    exact grounds_same hm hle rfl rfl rfl (fun _ hu => .inl (hrest hu)) trivial
  · exact ⟨hm, hle⟩

/-! Work that frees part of a stack and drops it from there. -/

theorem sober_truncateOperands (j : Nat) : (truncateOperands j).Sober n := by
  intro m hm hle
  have hgone : ∀ v ∈ m.exec.operands.take (m.exec.operands.length - j), v.StoredBelow m.storage.next := fun v hv =>
    hm.grounded.held v (by simp [Exec.held, List.mem_of_mem_take hv])
  have hrest : ({ m.exec with operands := m.exec.operands.drop (m.exec.operands.length - j) } : Exec).held ⊆
      m.exec.held := Exec.held_subset (.refl _) (List.drop_subset _ _) (.refl _) (.refl _)
  exact grounds_freed hm hle rfl rfl (frees_releaseAll hgone _) (fun _ hu => .inl (hrest hu)) trivial

theorem sober_truncateControl (j : Nat) : (truncateControl j).Sober n := by
  intro m hm hle
  have hgone : ∀ v ∈ (m.exec.control.take (m.exec.control.length - j)).map (·.value),
      v.StoredBelow m.storage.next := by
    intro v hv
    obtain ⟨f, hf, rfl⟩ := List.mem_map.mp hv
    have hheld : f.value ∈ m.exec.control.map (·.value) := List.mem_map_of_mem (List.mem_of_mem_take hf)
    exact hm.grounded.held _ (by simp only [Exec.held, List.mem_append]; tauto)
  have hrest : ({ m.exec with control := m.exec.control.drop (m.exec.control.length - j) } : Exec).held ⊆
      m.exec.held := Exec.held_subset (.refl _) (.refl _) (List.drop_subset _ _) (.refl _)
  exact grounds_freed hm hle rfl rfl (frees_releaseAll hgone _) (fun _ hu => .inl (hrest hu)) trivial

theorem sober_closeScope (depth layer : Nat) : (closeScope depth layer).Sober n := by
  intro m hm hle
  have hgone : ∀ v ∈ (m.exec.bindings.takeWhile fun x => !Exec.outlives depth layer x).map (·.value),
      v.StoredBelow m.storage.next := by
    intro v hv
    obtain ⟨x, hx, rfl⟩ := List.mem_map.mp hv
    have hheld : x.value ∈ m.exec.bindings.map (·.value) :=
      List.mem_map_of_mem ((List.takeWhile_sublist _).subset hx)
    exact hm.grounded.held _ (by simp only [Exec.held, List.mem_append]; tauto)
  have hrest : ({ m.exec with
      bindings := m.exec.bindings.dropWhile fun x => !Exec.outlives depth layer x } : Exec).held ⊆ m.exec.held :=
    Exec.held_subset (List.dropWhile_sublist _).subset (.refl _) (.refl _) (.refl _)
  exact grounds_freed hm hle rfl rfl (frees_releaseAll hgone _) (fun _ hu => .inl (hrest hu)) trivial

/-- No result is set in a frame that is changed. -/
theorem sober_mapFrame (depth : Nat) {f : CallFrame → CallFrame}
    (hf : ∀ x v, (f x).result = some v → x.result = some v) : (mapExec (Exec.mapFrame depth f)).Sober n := by
  intro m hm hle
  show (Outcome.done () { m with exec := m.exec.mapFrame depth f }).Grounds n _
  unfold Exec.mapFrame
  split
  · exact grounds_same hm hle rfl rfl rfl (fun _ => .inl) trivial
  · have hrest : ({ m.exec with calls := m.exec.calls.modify (m.exec.calls.length - depth) f } : Exec).held ⊆
        m.exec.held := Exec.held_subset (.refl _) (.refl _) (.refl _) (results_modify _ hf)
    exact grounds_same hm hle rfl rfl rfl (fun _ hu => .inl (hrest hu)) trivial

theorem sober_setLayer (depth layer : Nat) : (setLayer depth layer).Sober n := sober_mapFrame depth fun _ _ h => h

theorem grounds_takeResult (depth : Nat) : (takeResult depth).Grounds n fun k v => v.StoredBelow k := by
  refine grounds_bind (Q := fun k f => ∀ x v, f = some x → x.result = some v → v.StoredBelow k)
    (grounds_read fun m hm _ => ?_) fun k f hle hf => grounds_bind (sober_mapFrame depth nofun) fun k' _ hle' _ =>
      grounds_pure fun k'' hle'' => ?_
  · intro x v hx hv
    have hmem : x ∈ m.exec.calls := by
      unfold Exec.frame? at hx
      split at hx
      · cases hx
      · exact List.mem_of_getElem? hx
    have hresult : v ∈ m.exec.calls.filterMap (·.result) := List.mem_filterMap.mpr ⟨x, hmem, hv⟩
    exact hm.grounded.held v (by simp only [Exec.held, List.mem_append]; tauto)
  · cases hresult : f.bind (·.result) with
    | none => exact Value.storedBelow_scalar _ _ _
    | some v =>
      obtain ⟨x, hx, hv⟩ := Option.bind_eq_some_iff.mp hresult
      exact (hf x v hx hv).mono (Nat.le_trans hle' hle'')

end

/-! ## Natives -/

section

variable {v : Value}

theorem sober_declare (name : Text) (hv : v.StoredBelow n) : (declare name v).Sober n :=
  grounds_bind (sober_read _) fun _ _ hle _ => sober_pushVariable (hv.mono hle)

theorem sober_finish (hv : v.StoredBelow n) : (finish v).Sober n := by
  intro m hm hle
  unfold finish modify
  dsimp only
  cases hcalls : m.exec.calls with
  | nil => exact ⟨hm, hle, trivial⟩
  | cons f fs =>
    have hold : (f.result.getD .nothing).StoredBelow m.storage.next := by
      cases hresult : f.result with
      | none => exact Value.storedBelow_scalar _ _ _
      | some u => exact hm.grounded.held u (by simp [Exec.held, hcalls, hresult])
    refine grounds_freed hm hle rfl rfl (frees_release hold _) (fun u hu => ?_) trivial
    simp only [Exec.held, hcalls, List.filterMap_cons, List.mem_append, List.mem_cons] at hu ⊢
    rcases hu with hu | rfl | hu
    · exact .inl (.inl hu)
    · exact .inr hv
    · refine .inl (.inr ?_)
      split
      · exact hu
      · exact List.mem_cons_of_mem _ hu

theorem sober_assign (name : Text) (hv : v.StoredBelow n) : (assign name v).Sober n := by
  intro m hm hle
  unfold assign
  split
  · exact ⟨hm, hle, trivial⟩
  next i _ =>
    have hold : Value.StoredBelow m.storage.next (((m.exec.bindings[i]?).map (·.value)).getD .nothing) := by
      cases hx : m.exec.bindings[i]? with
      | none => exact Value.storedBelow_scalar _ _ _
      | some x =>
        have hheld : x.value ∈ m.exec.bindings.map (·.value) := List.mem_map_of_mem (List.mem_of_getElem? hx)
        exact hm.grounded.held x.value (by simp only [Exec.held, List.mem_append]; tauto)
    refine grounds_freed hm hle rfl rfl (frees_release hold _) (fun u hu => ?_) trivial
    have hbindings : ∀ u ∈ (m.exec.bindings.modify i (·.bind v)).map (·.value),
        u ∈ m.exec.bindings.map (·.value) ∨ u = v := by
      intro u hu
      obtain ⟨x, hx, rfl⟩ := List.mem_map.mp hu
      obtain ⟨j, hj⟩ := List.mem_iff_getElem?.mp hx
      rw [List.getElem?_modify] at hj
      obtain ⟨y, hy, rfl⟩ := Option.map_eq_some_iff.mp hj
      split
      · exact .inr rfl
      · exact .inl (List.mem_map_of_mem (List.mem_of_getElem? hy))
    simp only [Exec.held, List.mem_append] at hu ⊢
    rcases hu with ((hu | hu) | hu) | hu
    · rcases hbindings u hu with hmem | rfl
      · exact .inl (.inl (.inl (.inl hmem)))
      · exact .inr hv
    all_goals tauto

theorem sober_keep (name : Text) (hv : v.StoredBelow n) :
    (mapHost fun h => { h with kept := h.kept.set name v }).Sober n := by
  intro m hm hle
  refine ⟨⟨⟨hm.grounded.sound, hm.grounded.held, fun x hx => ?_⟩, hm.honest⟩, hle, trivial⟩
  rcases Table.mem_set hx with hold | hnew
  · exact hm.grounded.kept x hold
  · rw [hnew]
    exact hv.mono hle

theorem grounds_fetch (name : Text) : (fetch name).Grounds n fun k r => ∀ v ∈ r, v.StoredBelow k := by
  refine grounds_bind (sober_read _) fun k x _ _ => ?_
  cases x with
  | none => exact grounds_pure fun _ _ => nofun
  | some x => exact grounds_bind (grounds_copy x.value) fun k' w _ hw => grounds_pure fun k'' hle u hu =>
      Option.mem_some.mp hu ▸ hw.mono hle

theorem grounds_argument (i : Int) : (argument i).Grounds n fun k v => v.StoredBelow k := by
  have hnothing : ∀ k, (Pure.pure Value.nothing : Work Value).Grounds k fun k v => v.StoredBelow k := fun _ =>
    grounds_pure fun _ _ => Value.storedBelow_scalar _ _ _
  refine grounds_bind (sober_read _) fun k calls _ _ => ?_
  cases calls with
  | nil => exact hnothing k
  | cons f fs =>
    dsimp only
    split
    · exact grounds_copy _
    · exact hnothing k

/-- What an invocation ends with, unless an error stops it, is stored in cells that were handed out. -/
abbrev ResultBelow (k : Cell) (r : Except Error Value) : Prop := ∀ v, r = .ok v → v.StoredBelow k

variable {invoke : Invoker} (hi : ∀ k c args, (invoke c args).Grounds k ResultBelow)
include hi

theorem grounds_call (c : Option ChainId) (args : List Value) :
    (call invoke c args).Grounds n fun k v => v.StoredBelow k := by
  have hfail : ∀ k e, (do fail e; return Value.nothing : Work Value).Grounds k fun k v => v.StoredBelow k :=
    fun k e => grounds_bind (sober_modify (fun _ => rfl) (fun _ => rfl) (fun _ => rfl) fun _ => rfl) fun _ _ _ _ =>
      grounds_pure fun _ _ => Value.storedBelow_scalar _ _ _
  cases c with
  | none => exact hfail n _
  | some c =>
    refine grounds_bind (grounds_onStorage (Q := fun k vs => ∀ v ∈ vs, v.StoredBelow k) (extends_copyAll args)
      fun s _ => s.storedBelow_copyAll args) fun k bound _ hbound => grounds_bind (hi k c bound) fun k' r hle hr => ?_
    refine grounds_bind (sober_releaseAll fun v hv => (hbound v hv).mono hle) fun k'' _ hle' _ => ?_
    cases r with
    | ok v => exact grounds_pure fun l hl => (hr v rfl).mono (Nat.le_trans hle' hl)
    | error e => exact hfail k'' e

/-- A request about values that are known is answered on a grounded machine, and leaves it so. -/
theorem answer_grounds (r : Request) (hr : ∀ v ∈ r.values, v.StoredBelow n) :
    (answer invoke r).Grounds n fun k reply => ∀ v ∈ r.told reply, v.StoredBelow k := by
  -- Most replies tell of no value.
  have hsilent : ∀ {w : Work r.Reply}, (∀ reply, r.told reply = []) → w.Sober n →
      w.Grounds n fun k reply => ∀ v ∈ r.told reply, v.StoredBelow k := fun htold hw =>
    hw.imp fun k reply _ v hv => by
      rw [htold] at hv
      cases hv
  have hsame : ∀ {f : Machine → Machine}, (∀ m, (f m).program = m.program) →
      (∀ m, (f m).host.kept = m.host.kept) → (∀ m, (f m).storage = m.storage) →
      (∀ m, (f m).exec.held = m.exec.held) → (modify f).Sober n := sober_modify
  have hone : ∀ {w : Work Value}, (w.Grounds n fun k v => v.StoredBelow k) →
      w.Grounds n fun k v => ∀ u ∈ [v], u.StoredBelow k := fun hw =>
    hw.imp fun k v hv => List.forall_mem_singleton.mpr hv
  cases r with
  | skipBody =>
    refine hsilent (fun _ => rfl) fun m hm hle => ?_
    show (skipBody m).Grounds n _
    unfold skipBody
    split
    · exact ⟨hm, hle⟩
    · split
      · exact grounds_same hm hle rfl rfl rfl (fun _ => .inl) trivial
      · exact ⟨hm, hle⟩
  | jumpTo i => exact hsilent (fun _ => rfl) (hsame (fun _ => rfl) (fun _ => rfl) (fun _ => rfl) fun _ => rfl)
  | finish v => exact hsilent (fun _ => rfl) (sober_finish (hr v List.mem_cons_self))
  | fail e => exact hsilent (fun _ => rfl) (hsame (fun _ => rfl) (fun _ => rfl) (fun _ => rfl) fun _ => rfl)
  | declare name v => exact hsilent (fun _ => rfl) (sober_declare name (hr v List.mem_cons_self))
  | assign name v => exact hsilent (fun _ => rfl) (sober_assign name (hr v List.mem_cons_self))
  | fetch name =>
    exact (grounds_fetch name).imp fun k r hr v hv => hr v (Option.mem_toList.mp hv)
  | pushData v => exact hsilent (fun _ => rfl) (sober_pushControl (f := .data v) (hr v List.mem_cons_self))
  | popData => exact hone grounds_popData
  | argument i => exact hone (grounds_argument i)
  | call c args => exact hone (grounds_call hi c args)
  | glimpse => exact hsilent (fun _ => rfl) (sober_read _)
  | view v =>
    exact hone (grounds_read fun m _ hle => m.storage.storedBelow_view ((hr v List.mem_cons_self).mono hle))
  | copy v => exact hone (grounds_copy v)
  | newList own items =>
    refine hone (grounds_onStorage (f := (·.newList own items)) (fun s => ⟨rfl, Nat.le_succ _⟩) fun s hle => ?_)
    refine (Value.everywhere_list _ _ _).mpr ⟨Nat.lt_succ_self _, fun v hv => ?_⟩
    exact (hr v hv).mono (Nat.le_succ_of_le hle)
  | place v =>
    exact hone (grounds_onStorage (extends_place v) fun s _ =>
      storedIn_mono (fun _ hc => hc.2) (storedIn_place v s))
  | free v =>
    refine hsilent (fun _ => rfl) fun m hm hle => ?_
    exact grounds_freed hm hle rfl rfl (frees_free m.storage ((hr v List.mem_cons_self).mono hle)) (fun _ => .inl)
      trivial
  | print line =>
    refine hsilent (fun _ => rfl) fun m hm hle => ?_
    show (print line m).Grounds n _
    unfold print
    split
    · exact ⟨hm, hle, trivial⟩
    · exact grounds_same hm hle rfl rfl rfl (fun _ => .inl) trivial
  | report e => exact hsilent (fun _ => rfl) (hsame (fun _ => rfl) (fun _ => rfl) (fun _ => rfl) fun _ => rfl)
  | tick j => exact hsilent (fun _ => rfl) fun m hm hle => grounds_same hm hle rfl rfl rfl (fun _ => .inl) trivial
  | keep name v => exact hsilent (fun _ => rfl) (sober_keep name (hr v List.mem_cons_self))
  | kept name =>
    refine grounds_read fun m hm _ v hv => ?_
    obtain ⟨x, hx, rfl⟩ := Option.map_eq_some_iff.mp (Option.mem_toList.mp hv)
    exact hm.grounded.kept x (List.mem_of_find?_eq_some hx)
  | chainNamed name => exact hsilent (fun _ => rfl) (sober_read _)
  | pause => exact hsilent (fun _ => rfl) fun m hm hle => ⟨hm, fun k hk hnext => ⟨hk, Nat.le_trans hle hnext, trivial⟩⟩
  | cancelRun cause =>
    refine hsilent (fun _ => rfl) (hsame (fun _ => rfl) (fun _ => rfl) (fun _ => rfl) fun m => ?_)
    dsimp only
    split <;> rfl

/-- What an honest native asks for leaves the machine grounded. -/
theorem perform_grounds {Q : Cell → α → Prop} (hQ : ∀ k k' a, k ≤ k' → Q k a → Q k' a) {p : Proc α}
    (hp : p.Honest n Q) : (perform invoke p).Grounds n Q := by
  induction p generalizing n with
  | done a => exact grounds_pure fun k hle => hQ n k a hle hp
  | crash f => exact grounds_crash f
  | ask r go ih =>
    exact grounds_bind (answer_grounds hi r hp.1) fun k reply hle htold => ih reply (hp.2 k reply hle htold)

end

end Work

end BlockEngine
