/-
  BlockEngine.Proofs.Library.Walk — the control stack of a walk through standard blocks.

  The walk is followed through a stretch of a chain, which may be all of it. On top of what it found
  there, the control stack holds a frame for each body opened since, above the value that the repetition
  keeps that opened it, if it is one (`Bodies`). Where breakdowns are let pass, values that control
  blocks inside arguments left behind may lie between them. In a tidy region none do, and what is left
  of the stretch closes exactly the bodies that were opened in it (`Program.Closes`).

  Proved, for regions of standard blocks:
  - `advance_stands`: a turn of the walk preserves this (`Standing`).
  - `Standing.arrived`: past a stretch the walk finds the control stack as it was before, and of the
    bindings made meanwhile only those of bodies that were open then.
  - `keeps_control`: invocations leave the control stack as they found it, and in a tidy region break
    down only where a stack is full.
-/

import BlockEngine.Proofs.Library.Evaluation
import BlockEngine.Proofs.Machine.Invocation

namespace BlockEngine

open List (Forall₂)

/-! ## Open bodies -/

/-- A stretch of a chain up to some position, and what the walk found where it came to it: how many
    bodies were open, the control stack, and the bindings. -/
structure Stretch where
  stop : Nat
  layer : Nat
  control : List ControlFrame
  bindings : List Variable

def Program.whole (p : Program) (c : ChainId) (m₀ : Machine) : Stretch :=
  ⟨(p.chain c).length, 0, m₀.exec.control, m₀.exec.bindings⟩

/-- With so many bodies open, what is left of the stretch from a position on closes those that were
    opened in it. -/
def Program.Closes (p : Program) (c : ChainId) (S : Stretch) (layer i : Nat) : Prop :=
  S.layer ≤ layer ∧ Balance.scan (layer - S.layer) i (((p.outline c).take S.stop).drop i) = none

section

variable {p : Program} {c : ChainId} {S : Stretch} {layer i : Nat} {b : BlockId}

/-- How many bodies are to be closed after a block. -/
theorem Program.Closes.next (h : p.Closes c S layer i) (hb : (p.chain c)[i]? = some b) (hi : i < S.stop) :
    match (p.kindOf b).type with
    | .control => p.Closes c S (layer + 1) (i + 1)
    | .terminator => ∃ rest, layer = rest + 1 ∧ p.Closes c S rest (i + 1)
    | .continuation => S.layer < layer ∧ p.Closes c S layer (i + 1)
    | _ => p.Closes c S layer (i + 1) := by
  obtain ⟨hle, hscan⟩ := h
  obtain ⟨d, rfl⟩ := Nat.exists_eq_add_of_le hle
  have hdrop : ((p.outline c).take S.stop).drop i =
      ((p.kindOf b).type, (p.kindOf b).id) :: ((p.outline c).take S.stop).drop (i + 1) := by
    have hlt : i < ((p.outline c).take S.stop).length := by
      rw [List.length_take, Program.outline, List.length_map]
      exact Nat.lt_min.mpr ⟨hi, (List.getElem?_eq_some_iff.mp hb).1⟩
    rw [List.drop_eq_getElem_cons hlt]
    congr 1
    simp only [Program.outline, List.getElem_take, List.getElem_map, (List.getElem?_eq_some_iff.mp hb).2]
  rw [hdrop, Nat.add_sub_cancel_left] at hscan
  cases ht : (p.kindOf b).type with
  | control =>
    rw [ht] at hscan
    refine ⟨by omega, ?_⟩
    rw [show S.layer + d + 1 - S.layer = d + 1 by omega]
    simpa [Balance.scan] using hscan
  | terminator =>
    rw [ht] at hscan
    cases d with
    | zero => cases hscan
    | succ d => exact ⟨S.layer + d, rfl, by omega, by simpa [Balance.scan] using hscan⟩
  | continuation =>
    rw [ht] at hscan
    cases d with
    | zero => cases hscan
    | succ d => exact ⟨by omega, by omega, by simpa [Balance.scan] using hscan⟩
  | _ =>
    rw [ht] at hscan
    exact ⟨by omega, by simpa [Balance.scan] using hscan⟩

theorem Program.Closes.terminated (h : p.Closes c S (layer + 1) i) (hb : (p.chain c)[i]? = some b) (hi : i < S.stop)
    (ht : (p.kindOf b).type = .terminator) : p.Closes c S layer (i + 1) := by
  have hnext := h.next hb hi
  rw [ht] at hnext
  obtain ⟨rest, hr, hcloses⟩ := hnext
  exact Nat.succ.inj hr ▸ hcloses

theorem Program.Closes.continued (h : p.Closes c S layer i) (hb : (p.chain c)[i]? = some b) (hi : i < S.stop)
    (ht : (p.kindOf b).type = .continuation) : p.Closes c S layer (i + 1) := by
  have hnext := h.next hb hi
  rw [ht] at hnext
  exact hnext.2

/-- A block of the stretch closes no body that was open before. -/
theorem Program.Closes.lt_layer (h : p.Closes c S layer i) (hb : (p.chain c)[i]? = some b) (hi : i < S.stop)
    (ht : (p.kindOf b).type.closes = true) : S.layer < layer := by
  have hnext := h.next hb hi
  cases htype : (p.kindOf b).type <;> rw [htype] at hnext ht <;> try cases ht
  · exact hnext.1
  · obtain ⟨rest, rfl, hrest, -⟩ := hnext
    omega

/-- The frames of the bodies that were opened in a stretch of a chain. Above the layer of a suppressed
    body they hold nothing. -/
inductive Bodies (p : Program) (c : ChainId) (lenient : Prop) (S : Stretch) (mute : Option Nat) :
    Nat → List ControlFrame → Prop
  | none : Bodies p c lenient S mute S.layer []
  | one {layer i : Nat} {b : BlockId} {v : Value} {kept : List Value} {L : List ControlFrame} :
      Bodies p c lenient S mute layer L → (p.chain c)[i]? = some b → (p.kindOf b).type.opens = true →
      kept.length = (if (p.kindOf b).repeats v then 1 else 0) → (∀ s ∈ mute, s ≤ layer → v = .nothing) →
      (¬ lenient → (p.kindOf b).type = .control → p.Closes c S layer i) →
      Bodies p c lenient S mute (layer + 1) (.body i v :: (framesOf kept ++ L))
  | stray {layer : Nat} {v : Value} {L : List ControlFrame} :
      lenient → Bodies p c lenient S mute layer L → Bodies p c lenient S mute layer (.data v :: L)

namespace Bodies

variable {lenient : Prop} {mute : Option Nat} {L : List ControlFrame}

theorem le (h : Bodies p c lenient S mute layer L) : S.layer ≤ layer := by
  induction h with
  | none => exact Nat.le_refl _
  | one _ _ _ _ _ _ ih => exact Nat.le_succ_of_le ih
  | stray _ _ ih => exact ih

theorem strays (h : Bodies p c lenient S mute layer L) {strays : List Value} (hs : strays ≠ [] → lenient) :
    Bodies p c lenient S mute layer (framesOf strays ++ L) := by
  induction strays with
  | nil => exact h
  | cons v vs ih => exact .stray (hs (List.cons_ne_nil v vs)) (ih fun _ => hs (List.cons_ne_nil v vs))

/-- No body that was opened in the stretch is open. -/
theorem eq_nil (h : Bodies p c lenient S mute layer L) (hl : layer = S.layer) (hs : ¬ lenient) : L = [] := by
  cases h with
  | none => rfl
  | one hL => exact absurd hL.le (by omega)
  | stray hlen => exact absurd hlen hs

theorem unmuted (h : Bodies p c lenient S mute layer L) : Bodies p c lenient S Option.none layer L := by
  induction h with
  | none => exact .none
  | one _ hb ho hk _ hc ih => exact .one ih hb ho hk (fun _ h => by cases h) hc
  | stray hl _ ih => exact .stray hl ih

/-- A body that is opened on top of these is suppressed. -/
theorem muted (h : Bodies p c lenient S mute layer L) {s : Nat} (hs : layer ≤ s) :
    Bodies p c lenient S (some s) layer L := by
  induction h with
  | none => exact .none
  | one _ hb ho hk _ hc ih =>
    refine .one (ih (Nat.le_of_succ_le hs)) hb ho hk (fun t ht hle => ?_) hc
    cases ht
    omega
  | stray hl _ ih => exact .stray hl (ih hs)

/-- Either a value lies on top that was left behind, or the frame of the innermost body. -/
theorem top (h : Bodies p c lenient S mute layer L) (hl : S.layer < layer) :
    (lenient ∧ ∃ v rest, L = .data v :: rest) ∨
      ∃ below i b v kept rest, layer = below + 1 ∧ L = .body i v :: (framesOf kept ++ rest) ∧
        Bodies p c lenient S mute below rest ∧ (p.chain c)[i]? = some b ∧ (p.kindOf b).type.opens = true ∧
        kept.length = (if (p.kindOf b).repeats v then 1 else 0) ∧ (∀ s ∈ mute, s ≤ below → v = .nothing) ∧
        (¬ lenient → (p.kindOf b).type = .control → p.Closes c S below i) := by
  cases h with
  | none => exact absurd hl (Nat.lt_irrefl _)
  | one hL hb ho hk hs hc => exact .inr ⟨_, _, _, _, _, _, rfl, rfl, hL, hb, ho, hk, hs, hc⟩
  | stray hlen _ => exact .inl ⟨hlen, _, _, rfl⟩

end Bodies

theorem Definition.repeats_nothing (d : Definition) : d.repeats .nothing = false := by
  simp [Definition.repeats, Value.toBool, Value.nothing, Scalar.toBool]

theorem Definition.control_of_repeats {d : Definition} {v : Value} (h : d.repeats v = true) : d.type = .control := by
  simp only [Definition.repeats, Bool.and_eq_true, beq_iff_eq] at h
  exact h.1.1

end

/-! ## Where a walk stands -/

section

variable (p : Program) (lenient flat : Prop) (c : ChainId) (S : Stretch) (m₀ : Machine) (args : List Value)

/-- On what the walk found where it came to the stretch lie the frames of the bodies opened in it, under
    what a block keeps, and the bindings made in these. -/
structure Stacked (mute : Option Nat) (kept : List Value) (m : Machine) : Prop where
  frames : ∃ L, m.exec.control = framesOf kept ++ (L ++ S.control) ∧ Bodies p c lenient S mute m.exec.layer L
  bindings : ∃ new old, m.exec.bindings = new ++ old ∧ Forall₂ Variable.Lasts S.bindings old ∧
    ∀ x ∈ new, S.layer ≤ x.layer
  mute : ∀ s ∈ mute, S.layer < s ∧ s ≤ m.exec.layer

structure Standing (cursor : Cursor) (m : Machine) : Prop where
  stack : ∃ kept, Stacked p lenient c S cursor.suppressed kept m ∧ kept.length = if cursor.bareNext then 1 else 0
  bare : cursor.bareNext = true → cursor.suppressed = none ∧
    ∃ b, (p.chain c)[cursor.position]? = some b ∧ (p.kindOf b).repeats (.ofBool true) = true
  closes : ¬ lenient → p.Closes c S m.exec.layer cursor.position

/-- The walk is at a block, the body that it closes is closed, and it keeps some values. -/
structure Facing (mute : Option Nat) (i : Nat) (b : BlockId) (kept : List Value) (m : Machine) : Prop where
  block : (p.chain c)[i]? = some b
  stack : Stacked p lenient c S mute kept m
  onward : ¬ lenient → p.Closes c S (if (p.kindOf b).type.opens then m.exec.layer + 1 else m.exec.layer) (i + 1)
  back : ¬ lenient → (p.kindOf b).type = .control → p.Closes c S m.exec.layer i

structure Within (P : Machine → Prop) (m : Machine) : Prop where
  underway : m₀.Underway args m
  calm : m₀.Calm flat m
  holds : P m

def Turned : Turn → Machine → Prop
  | .next cursor => Within flat m₀ args (Standing p lenient c S cursor)
  | .stop _ => Within flat m₀ args fun m => ∃ L, m.exec.control = L ++ S.control

end

/-- What was bound where the walk came to the stretch outlives the bodies opened in it; and breaking down is
    let pass only in chains as a whole. -/
structure Stretch.Fits (S : Stretch) (lenient : Prop) (m₀ : Machine) : Prop where
  outer : lenient → S.layer = 0
  bindings : ∀ x ∈ S.bindings, Exec.outlives (m₀.exec.calls.length + 1) (S.layer + 1) x = true

/-- A whole chain fits. -/
theorem Machine.Scoped.whole {m₀ : Machine} (hs : m₀.Scoped) (p : Program) (c : ChainId) (lenient : Prop) :
    (p.whole c m₀).Fits lenient m₀ := by
  refine ⟨fun _ => rfl, fun x hx => ?_⟩
  have hd : x.depth ≤ m₀.exec.calls.length := hs.depth_le x.tag (List.mem_map_of_mem hx)
  simp [Exec.outlives, Nat.lt_succ_of_le hd]

section

variable {p : Program} {lenient : Prop} {c : ChainId} {S : Stretch} {m₀ m k : Machine} {i : Nat} {b : BlockId}
  {mute : Option Nat} {kept : List Value}

/-- Nothing that matters for what lies on the stacks has changed. -/
theorem Stacked.of_exec (h : Stacked p lenient c S mute kept m) (he : k.exec = m.exec) :
    Stacked p lenient c S mute kept k := ⟨he ▸ h.frames, he ▸ h.bindings, he ▸ h.mute⟩

theorem Stacked.unmuted (h : Stacked p lenient c S mute kept m) : Stacked p lenient c S none kept m :=
  ⟨h.frames.imp fun _ hL => ⟨hL.1, hL.2.unmuted⟩, h.bindings, fun _ hs => nomatch hs⟩

theorem Stacked.le (h : Stacked p lenient c S mute kept m) : S.layer ≤ m.exec.layer := h.frames.choose_spec.2.le

/-- What the walk found lies at the bottom of the control stack. -/
theorem Stacked.bottom (h : Stacked p lenient c S mute kept m) : ∃ L, m.exec.control = L ++ S.control := by
  obtain ⟨L, hctl, -⟩ := h.frames
  exact ⟨framesOf kept ++ L, by rw [hctl, List.append_assoc]⟩

theorem Standing.of_exec {cursor : Cursor} (h : Standing p lenient c S cursor m) (he : k.exec = m.exec) :
    Standing p lenient c S cursor k :=
  ⟨h.stack.imp fun _ hs => ⟨hs.1.of_exec he, hs.2⟩, h.bare, he ▸ h.closes⟩

/-- Going on after a block that opens no body. -/
theorem Facing.passed (cursor : Cursor) (h : Facing p lenient c S cursor.suppressed i b [] m)
    (ho : (p.kindOf b).type.opens = false) (hc : cursor.position = i + 1) (hb : cursor.bareNext = false) :
    Standing p lenient c S cursor m := by
  refine ⟨⟨[], h.stack, by simp [hb]⟩, fun hn => ?_, fun hl => ?_⟩
  · rw [hb] at hn
    cases hn
  · have := h.onward hl
    rwa [if_neg (by simp [ho]), ← hc] at this

/-- Going on after a terminator that has closed a body. -/
theorem Standing.terminated {cursor : Cursor} (hat : (p.chain c)[cursor.position]? = some b)
    (hin : cursor.position < S.stop) (ht : (p.kindOf b).type = .terminator) (hbare : cursor.bareNext = false)
    (hstack : Stacked p lenient c S cursor.suppressed [] m)
    (hclose : ¬ lenient → p.Closes c S (m.exec.layer + 1) cursor.position) :
    Standing p lenient c S { cursor with position := cursor.position + 1 } m := by
  refine ⟨⟨[], hstack, by rw [hbare]; rfl⟩, fun hn => ?_, fun hl => (hclose hl).terminated hat hin ht⟩
  rw [hbare] at hn
  cases hn

/-- Facing a continuation that has closed a body. -/
theorem Facing.continued (hat : (p.chain c)[i]? = some b) (hin : i < S.stop) (ht : (p.kindOf b).type = .continuation)
    (hstack : Stacked p lenient c S mute [] m) (hclose : ¬ lenient → p.Closes c S (m.exec.layer + 1) i) :
    Facing p lenient c S mute i b [] m := by
  refine ⟨hat, hstack, fun hl => ?_, fun _ h => ?_⟩
  · rw [ht]
    exact (hclose hl).continued hat hin ht
  · rw [ht] at h
    cases h

/-- The walk has come past a stretch of a chain that nests, to a block that is no repetition: all bodies
    that were opened in the stretch are closed, none is suppressed, and nothing is kept. -/
theorem Standing.arrived {cursor : Cursor} (hl : ¬ lenient) (h : Standing p lenient c S cursor m)
    (hat : cursor.position = S.stop) {b : BlockId} (hb : (p.chain c)[S.stop]? = some b)
    (ht : (p.kindOf b).type ≠ .control) :
    cursor = { position := S.stop } ∧ m.exec.layer = S.layer ∧ m.exec.control = S.control ∧
      ∃ new old, m.exec.bindings = new ++ old ∧ Forall₂ Variable.Lasts S.bindings old ∧ ∀ x ∈ new, S.layer ≤ x.layer := by
  obtain ⟨hle, hscan⟩ := h.closes hl
  have hlayer : m.exec.layer = S.layer := by
    rw [hat, List.drop_eq_nil_of_le (List.length_take_le _ _)] at hscan
    cases hd : m.exec.layer - S.layer with
    | zero => omega
    | succ d =>
      rw [hd] at hscan
      cases hscan
  have hbare : cursor.bareNext = false := Bool.eq_false_iff.mpr fun hn => by
    obtain ⟨-, b', hb', hrep⟩ := h.bare hn
    rw [hat, hb] at hb'
    cases hb'
    exact ht (Definition.control_of_repeats hrep)
  obtain ⟨kept, hstack, hlen⟩ := h.stack
  rw [hbare] at hlen
  obtain rfl := List.eq_nil_of_length_eq_zero hlen
  obtain ⟨L, hctl, hL⟩ := hstack.frames
  obtain rfl := hL.eq_nil hlayer hl
  have hmute : cursor.suppressed = none := Option.eq_none_iff_forall_not_mem.mpr fun s hs => by
    have := hstack.mute s hs
    omega
  refine ⟨?_, hlayer, hctl, hstack.bindings⟩
  obtain ⟨position, suppressed, bareNext⟩ := cursor
  subst hat hbare hmute
  rfl

end

theorem BlockType.continuation_of_closes {t : BlockType} (h : t.closes = true) (ht : ¬ (t == .terminator) = true) :
    t = .continuation := by
  cases t with
  | continuation => rfl
  | terminator => exact absurd rfl ht
  | _ => cases h

/-- Facing a block still that was evaluated in its place. -/
theorem Facing.evaluated {p : Program} {lenient : Prop} {c : ChainId} {S : Stretch} {m k : Machine}
    {mute : Option Nat} {i : Nat} {b : BlockId} {kept kept' : List Value} (h : Facing p lenient c S mute i b kept m)
    (hl : k.exec.layer = m.exec.layer) (hk : Stacked p lenient c S mute kept' k) :
    Facing p lenient c S mute i b kept' k :=
  ⟨h.block, hk, hl ▸ h.onward, hl ▸ h.back⟩

/-- Freeing a value that may be freed. -/
theorem Within.released {flat : Prop} {m₀ m : Machine} {args : List Value} {P Q : Machine → Prop} {v : Value}
    (h : Within flat m₀ args P m) (hv : flat → v.IsScalar) (hQ : Q { m with storage := m.storage.release v }) :
    Within flat m₀ args Q { m with storage := m.storage.release v } :=
  ⟨h.underway.of_eq rfl rfl, h.calm.of_exec rfl (fun hf _ => Storage.release_scalar (hv hf)) rfl, hQ⟩

/-! ## Calm steps -/

namespace Machine.Calm

variable {flat : Prop} {m₀ m : Machine}

/-- Opening and closing bodies changes neither the arguments nor the results of invocations. -/
theorem withLayer (h : m₀.Calm flat m) (layer : Nat) :
    m₀.Calm flat { m with exec := m.exec.withLayer layer } := by
  intro hf
  obtain ⟨hp, hq⟩ := h hf
  have hargs := hp.args
  have hres := hp.results
  refine ⟨⟨hp.operands, hp.control, hp.bindings, ?_, ?_⟩, hq.trans ⟨rfl, rfl, rfl, rfl⟩⟩
  · cases hc : m.exec.calls with
    | nil => simp [Exec.withLayer, hc]
    | cons f fs => simpa [Exec.withLayer, hc] using hargs
  · cases hc : m.exec.calls with
    | nil => simp [Exec.withLayer, hc]
    | cons f fs => simpa [Exec.withLayer, hc] using hres

theorem withControl (h : m₀.Calm flat m) {L : List ControlFrame} (hL : flat → m.Plain → ∀ f ∈ L, f.value.IsScalar) :
    m₀.Calm flat { m with exec.control := L } := fun hf => by
  obtain ⟨hp, hq⟩ := h hf
  exact ⟨⟨hp.operands, hL hf hp, hp.bindings, hp.args, hp.results⟩, hq.trans ⟨rfl, rfl, rfl, rfl⟩⟩

theorem inBody (h : m₀.Calm flat m) (i : Nat) {v : Value} (hv : flat → v.IsScalar) :
    m₀.Calm flat (m.inBody i v) :=
  (h.withLayer (m.exec.layer + 1)).withControl fun hf hp => List.forall_mem_cons.mpr ⟨hv hf, hp.control⟩

/-- The bindings of bodies that are closed go, and are freed. -/
theorem closed (h : m₀.Calm flat m) (depth layer : Nat) :
    m₀.Calm flat
      { m with
        exec := m.exec.closed depth layer
        storage := m.storage.releaseAll
          ((m.exec.bindings.takeWhile fun v => !Exec.outlives depth layer v).map (·.value)) } := by
  intro hf
  obtain ⟨hp, hq⟩ := h hf
  have hrel : ∀ v ∈ (m.exec.bindings.takeWhile fun v => !Exec.outlives depth layer v).map (·.value), v.IsScalar := by
    intro v hv
    obtain ⟨x, hx, rfl⟩ := List.mem_map.mp hv
    exact hp.bindings x (List.takeWhile_prefix _ |>.subset hx)
  exact ⟨⟨hp.operands, hp.control, fun x hx => hp.bindings x (List.dropWhile_suffix _ |>.subset hx), hp.args,
    hp.results⟩, hq.trans ⟨Storage.releaseAll_scalars hrel, rfl, rfl, rfl⟩⟩

theorem outOfBody (h : m₀.Calm flat m) (layer : Nat) {rest : List ControlFrame}
    (hr : flat → m.Plain → ∀ f ∈ rest, f.value.IsScalar) : m₀.Calm flat (m.outOfBody layer rest) :=
  ((h.withControl hr).closed m.exec.calls.length layer).withLayer (layer - 1)

end Machine.Calm

namespace Work

variable {p : Program} {R : Region p} {lenient flat waits : Prop} {c : ChainId} {S : Stretch} {m₀ m : Machine}
  {args : List Value} {mute : Option Nat}

theorem meets_isFinished {depth : Nat} {Q : Bool → Machine → Prop} {E : Exits} (h : ∀ finished, Q finished m) :
    (isFinished depth).Meets Q E m := h _

/-- A block of the chain is evaluated, and keeps some values then. -/
theorem eval_stands {eval : Evaluator} (he : EvaluatesWell R lenient flat waits eval) (hse : Settling eval)
    (hs : m₀.Scoped) (hp : m₀.program = p) {b : BlockId} (hb : R.blocks b) {index : Int} {mark : Marker} {bare : Bool}
    {prior : Option Value} {kept : List Value} (hent : (p.kindOf b).Entered index lenient mark bare prior kept)
    (hpr : ∀ v ∈ prior, flat → v.IsScalar) (h : Within flat m₀ args (Stacked p lenient c S mute kept) m) :
    (eval b index mark bare prior).Meets
      (fun r => Within flat m₀ args fun k => k.exec.layer = m.exec.layer ∧
        ∃ kept', Stacked p lenient c S mute kept' k ∧ ∀ v asked, r = .ok (v, asked) →
          (flat → v.IsScalar) ∧ (p.kindOf b).Leaves index kept v ⟨kept', asked.jump⟩ mark)
      (.orderly lenient waits) m := by
  obtain ⟨⟨L, hctl, hL⟩, ⟨new, old, hbindings, hold, hnew⟩, hmute⟩ := h.holds
  have hr : m.Ready p flat :=
    ⟨h.underway.calls_ne, h.underway.toScoped hs, h.underway.program.trans hp, fun hf => (h.calm hf).1⟩
  refine (Outcome.Meets.both (he hb hent hpr hr hctl) (hse b index mark bare prior m hr.calls_ne hr.toScoped)).mono
    (fun r k hk => ?_) (fun _ _ hf => hf.1) (fun _ _ => trivial) fun _ hf => hf.1
  obtain ⟨hev, hcar, hv, ho⟩ := hk
  obtain ⟨kept', strays, hc, hstrays, hok⟩ := hev.control
  obtain ⟨more, rest, hmore, hrest, hlayers⟩ := hcar.bindings
  rw [hbindings] at hrest
  obtain ⟨new', old', rfl, htags, hold'⟩ := Variable.Lasts.all_append hrest hold
  have hlayer := hcar.layer_eq
  refine ⟨h.underway.carries hcar hv ho, h.calm.trans hev.calm, hlayer, kept',
    ⟨⟨framesOf strays ++ L, ?_, ?_⟩, ⟨more ++ new', old', ?_, hold', fun x hx => ?_⟩, hlayer ▸ hmute⟩, hok⟩
  · rw [hc, List.append_assoc]
  · rw [hlayer]
    exact hL.strays fun hne => (hstrays hne).1
  · rw [hmore, List.append_assoc]
  · rcases List.mem_append.mp hx with hx | hx
    · exact (hlayers x hx).2 ▸ hL.le
    · exact Variable.Lasts.forall_tag (P := fun t => S.layer ≤ t.layer) htags hnew x hx

/-- Opening a body below a block that yielded a value and keeps what goes with it. -/
theorem openBody_stands {i : Nat} {b : BlockId} {kept : List Value}
    (h : Within flat m₀ args (Facing p lenient c S mute i b kept) m) (ho : (p.kindOf b).type.opens = true) {v : Value}
    (hv : flat → v.IsScalar) (hk : kept.length = if (p.kindOf b).repeats v then 1 else 0)
    {cursor : Nat → Cursor} (hc : ∀ layer, (cursor layer).position = i + 1)
    (hb : ∀ layer, (cursor layer).bareNext = false)
    (hmute : ∀ L, Bodies p c lenient S mute m.exec.layer L →
      Bodies p c lenient S (cursor (m.exec.layer + 1)).suppressed m.exec.layer L)
    (hbound : ∀ s ∈ (cursor (m.exec.layer + 1)).suppressed, s ∈ mute ∨ s = m.exec.layer + 1)
    (hsilent : ∀ s ∈ (cursor (m.exec.layer + 1)).suppressed, s ≤ m.exec.layer → v = .nothing) :
    (openBody (m₀.exec.calls.length + 1) i v).Meets
      (fun layer => Turned p lenient flat c S m₀ args (.next (cursor layer))) (.orderly lenient waits) m := by
  rw [meets_openBody h.underway.calls_length h.underway.calls_ne]
  split
  · obtain ⟨⟨L, hctl, hL⟩, hbindings, hlayers⟩ := h.holds.stack
    have hlayer := h.underway.layer_inBody i v
    refine ⟨h.underway.opened i v, h.calm.inBody i hv,
      ⟨[], ⟨⟨.body i v :: (framesOf kept ++ L), ?_, ?_⟩, hbindings, fun s hs => ?_⟩, ?_⟩, ?_, ?_⟩
    · show .body i v :: m.exec.control = _
      rw [hctl]
      simp [framesOf]
    · rw [hlayer]
      exact .one (hmute L hL) h.holds.block ho hk hsilent h.holds.back
    · have hle := hL.le
      rw [hlayer]
      rcases hbound s hs with hs | rfl
      · have := hlayers s hs
        omega
      · omega
    · rw [hb]
      rfl
    · intro hn
      rw [hb] at hn
      cases hn
    · intro hl
      rw [hlayer, hc]
      simpa [ho] using h.holds.onward hl
  · exact .inl ⟨_, _, rfl⟩

theorem leave_stands (hp : m₀.program = p) {i : Nat} {b : BlockId} {kept : List Value}
    (h : Within flat m₀ args (Facing p lenient c S none i b kept) m) {v : Value} (hv : flat → v.IsScalar)
    (hk : kept.length = if (p.kindOf b).repeats v then 1 else 0) (cursor : Cursor) (hs : cursor.suppressed = none)
    (hb : cursor.bareNext = false) (skip : Bool) :
    (leave c (m₀.exec.calls.length + 1) cursor i (i + 1) v skip).Meets (Turned p lenient flat c S m₀ args)
      (.orderly lenient waits) m := by
  have hprog : m.program = p := h.underway.program.trans hp
  simp only [leave, meets_bind, meets_blockAt, hprog, h.holds.block, kindOf, meets_read]
  split
  · rename_i ho
    rw [meets_bind]
    refine openBody_stands h ho hv hk (fun _ => rfl) (fun _ => hb) (fun L hL => ?_) (fun s hmem => ?_)
      fun s hmem hle => ?_
    · cases skip with
      | true => exact hL.muted (Nat.le_succ _)
      | false =>
        dsimp only
        rw [hs]
        exact hL
    · cases skip with
      | true =>
        cases hmem
        exact .inr rfl
      | false =>
        rw [hs] at hmem
        cases hmem
    · cases skip with
      | true =>
        cases hmem
        omega
      | false =>
        rw [hs] at hmem
        cases hmem
  · rename_i ho
    have ho : (p.kindOf b).type.opens = false := by simpa using ho
    rw [Definition.repeats_of_plain ho] at hk
    obtain rfl := List.eq_nil_of_length_eq_zero hk
    simp only [meets_bind, meets_release, meets_pure]
    have hf := Facing.passed { cursor with position := i + 1 } (hs ▸ h.holds) ho rfl hb
    exact h.released hv (hf.of_exec rfl)

theorem passOver_stands {cursor : Cursor} {b : BlockId}
    (h : Within flat m₀ args (Facing p lenient c S cursor.suppressed cursor.position b []) m)
    (hb : cursor.bareNext = false) :
    (passOver (m₀.exec.calls.length + 1) cursor (p.kindOf b).type).Meets (Turned p lenient flat c S m₀ args)
      (.orderly lenient waits) m := by
  unfold passOver
  dsimp only
  split
  · rename_i ho
    rw [meets_bind]
    exact openBody_stands h ho (v := .nothing) (fun _ => trivial) (by rw [Definition.repeats_nothing]; rfl)
      (fun _ => rfl) (fun _ => hb) (fun _ hL => hL) (fun _ hs => .inl hs) fun _ _ _ => rfl
  · rename_i ho
    exact ⟨h.underway, h.calm, Facing.passed { cursor with position := _ } h.holds (by simpa using ho) rfl hb⟩

theorem enter_stands {eval : Evaluator} (he : EvaluatesWell R lenient flat waits eval) (hse : Settling eval)
    (hs : m₀.Scoped) (hp : m₀.program = p) {cursor : Cursor} {b : BlockId} (hb : R.blocks b) {kept : List Value}
    (hsup : cursor.suppressed = none)
    (h : Within flat m₀ args (Facing p lenient c S none cursor.position b kept) m) {prior : Option Value}
    (hent : (p.kindOf b).Entered cursor.position lenient .opening (cursor.bareNext || prior.any (·.isOmitted)) prior
      kept)
    (hpr : ∀ v ∈ prior, flat → v.IsScalar) (t : BlockType) :
    (enter eval c (m₀.exec.calls.length + 1) cursor b t prior).Meets (Turned p lenient flat c S m₀ args)
      (.orderly lenient waits) m := by
  simp only [enter, meets_bind]
  refine (eval_stands he hse hs hp hb hent hpr ⟨h.underway, h.calm, h.holds.stack⟩).weaken fun r k hk => ?_
  obtain ⟨hlayer, kept', hst, hok⟩ := hk.holds
  cases r with
  | error e => exact ⟨hk.underway, hk.calm, hst.bottom⟩
  | ok va =>
    obtain ⟨v, asked⟩ := va
    obtain ⟨hv, hjump, hkept, -⟩ := hok v asked rfl
    rw [meets_bind]
    refine meets_isFinished fun finished => ?_
    split
    · simp only [meets_bind, meets_release, meets_pure]
      exact hk.released hv hst.bottom
    · have hjump : asked.jump = none := hjump
      rw [hjump]
      exact leave_stands hp ⟨hk.underway, hk.calm, h.holds.evaluated hlayer hst⟩ hv hkept
        { cursor with bareNext := false } hsup rfl asked.skip

/-- What is left of a turn once the body is closed that the block `b` at the cursor closes. -/
def Shut (p : Program) (lenient flat : Prop) (c : ChainId) (S : Stretch) (m₀ : Machine) (args : List Value)
    (b : BlockId) : Closed → Machine → Prop
  | .over turn => Turned p lenient flat c S m₀ args turn
  | .onward cursor prior => fun m => ∃ kept,
      Within flat m₀ args (Facing p lenient c S cursor.suppressed cursor.position b kept) m ∧
      (cursor.suppressed.isSome = true → kept = [] ∧ cursor.bareNext = false) ∧
      (cursor.suppressed.isSome = false → (∀ v ∈ prior, flat → v.IsScalar) ∧
        (p.kindOf b).Entered cursor.position lenient .opening (cursor.bareNext || prior.any (·.isOmitted)) prior kept)

theorem takeUp_stands {eval : Evaluator} (he : EvaluatesWell R lenient flat waits eval) (hse : Settling eval)
    (hs : m₀.Scoped) (hp : m₀.program = p) {b : BlockId} (hb : R.blocks b) {closed : Closed}
    (h : Shut p lenient flat c S m₀ args b closed m) :
    (takeUp eval c (m₀.exec.calls.length + 1) b (p.kindOf b).type closed).Meets (Turned p lenient flat c S m₀ args)
      (.orderly lenient waits) m := by
  cases closed with
  | onward cursor prior =>
    obtain ⟨kept, hf, hsup, hent⟩ := h
    simp only [takeUp]
    split
    · rename_i hsome
      obtain ⟨rfl, hbare⟩ := hsup hsome
      exact passOver_stands hf hbare
    · rename_i hsome
      have hnone : cursor.suppressed = none := by simpa using hsome
      obtain ⟨hpr, hent⟩ := hent (by rw [hnone]; rfl)
      exact enter_stands he hse hs hp hb hnone (hnone ▸ hf) hent hpr _
  | _ => exact h

/-- The opener of a body is entered again that was closed by the block `b` at the cursor. -/
theorem reenter_stands {eval : Evaluator} (he : EvaluatesWell R lenient flat waits eval) (hse : Settling eval)
    (hs : m₀.Scoped) (hp : m₀.program = p) (hR : ∀ {b}, b ∈ p.chain c → R.blocks b) (cursor : Cursor) {b : BlockId}
    (hat : (p.chain c)[cursor.position]? = some b) (hin : cursor.position < S.stop)
    (hcl : (p.kindOf b).type.closes = true) (hsup : cursor.suppressed = none) (hbare : cursor.bareNext = false)
    {opener : Nat} {b' : BlockId} {v : Value}
    {kept : List Value} (hop : (p.chain c)[opener]? = some b') (hopens : (p.kindOf b').type.opens = true)
    (hk : kept.length = if (p.kindOf b').repeats v then 1 else 0) (hv : flat → v.IsScalar)
    (hback : ¬ lenient → (p.kindOf b').type = .control → p.Closes c S m.exec.layer opener)
    (hclose : ¬ lenient → p.Closes c S (m.exec.layer + 1) cursor.position)
    (h : Within flat m₀ args (Stacked p lenient c S none kept) m) :
    (reenter eval c (m₀.exec.calls.length + 1) cursor (p.kindOf b).type opener v).Meets
      (Shut p lenient flat c S m₀ args b) (.orderly lenient waits) m := by
  have hprog : m.program = p := h.underway.program.trans hp
  simp only [reenter, meets_bind, meets_blockAt, hprog, hop]
  refine (eval_stands he hse hs hp (hR (List.mem_of_getElem? hop)) (.closes v kept hopens (Int.natCast_nonneg _) hk)
    (fun x hx => by cases hx; exact hv) h).weaken fun r k hk => ?_
  obtain ⟨hlayer, kept', hst, hok⟩ := hk.holds
  cases r with
  | error e => exact ⟨hk.underway, hk.calm, hst.bottom⟩
  | ok va =>
    obtain ⟨w, asked⟩ := va
    obtain ⟨hw, hleaves⟩ := hok w asked rfl
    rw [meets_bind]
    refine meets_isFinished fun finished => ?_
    split
    · simp only [meets_bind, meets_release, meets_pure]
      exact hk.released hw hst.bottom
    · rcases hleaves with ⟨hj, hnone⟩ | ⟨hj, hctrl, hlen, hrep, -⟩
      · dsimp only at hj hnone
        subst hnone
        rw [hj]
        dsimp only
        split
        · rename_i hterm
          simp only [meets_bind, meets_release, meets_pure]
          exact hk.released hw (.terminated hat hin (by simpa using hterm) hbare (hsup ▸ hst.of_exec rfl)
            (hlayer ▸ hclose))
        · rename_i hterm
          have ht := BlockType.continuation_of_closes hcl hterm
          refine ⟨[], ⟨hk.underway, hk.calm, .continued hat hin ht (hsup ▸ hst) (hlayer ▸ hclose)⟩, fun h => ?_,
            fun _ => ⟨fun x hx => ?_, ?_⟩⟩
          · rw [hsup] at h
            cases h
          · cases hx
            exact hw
          · have hent : (p.kindOf b).Entered cursor.position lenient .opening w.isOmitted (some w) [] :=
              .continues w ht (Int.natCast_nonneg _)
            simpa [hbare] using hent
      · dsimp only at hj hlen
        rw [hj]
        dsimp only
        have hin : ¬ (k.program.chain c).length < opener := by
          rw [hk.underway.program.trans hp]
          exact Nat.not_lt.mpr (Nat.le_of_lt (List.getElem?_eq_some_iff.mp hop).1)
        simp only [meets_bind, meets_release, blocksOf, meets_read, Int.toNat_natCast]
        rw [if_neg hin]
        refine hk.released hw (Q := Standing p lenient c S { cursor with position := opener, bareNext := w.isOmitted })
          ⟨⟨kept', hsup ▸ hst.of_exec rfl, hlen⟩, fun hn => ⟨hsup, b', hop, hrep hn⟩, fun hl => ?_⟩
        have := hback hl hctrl
        rwa [← hlayer] at this

theorem Cursor.closedTo_cases (cursor : Cursor) (layer : Nat) :
    cursor.closedTo layer = { cursor with suppressed := none } ∨
      cursor.closedTo layer = cursor ∧ ∀ s ∈ cursor.suppressed, s ≤ layer := by
  unfold Cursor.closedTo
  split
  · exact .inl rfl
  · rename_i hn
    refine .inr ⟨rfl, fun s hs => Nat.not_lt.mp fun hlt => hn ?_⟩
    rw [Option.mem_def.mp hs]
    exact decide_eq_true hlt

/-- A body was closed by the block `b` at the cursor. -/
theorem closeWith_stands {eval : Evaluator} (he : EvaluatesWell R lenient flat waits eval) (hse : Settling eval)
    (hs : m₀.Scoped) (hp : m₀.program = p) (hR : ∀ {b}, b ∈ p.chain c → R.blocks b) {cursor : Cursor} {b : BlockId}
    (hat : (p.chain c)[cursor.position]? = some b) (hin : cursor.position < S.stop)
    (hcl : (p.kindOf b).type.closes = true) (hbare : cursor.bareNext = false) {opener : Nat} {b' : BlockId} {v : Value}
    {kept : List Value} (hop : (p.chain c)[opener]? = some b') (hopens : (p.kindOf b').type.opens = true)
    (hk : kept.length = if (p.kindOf b').repeats v then 1 else 0) (hv : flat → v.IsScalar)
    (hback : ¬ lenient → (p.kindOf b').type = .control → p.Closes c S m.exec.layer opener)
    (hclose : ¬ lenient → p.Closes c S (m.exec.layer + 1) cursor.position)
    (hsilent : ∀ s ∈ cursor.suppressed, s ≤ m.exec.layer → v = .nothing)
    (h : Within flat m₀ args (Stacked p lenient c S (cursor.closedTo m.exec.layer).suppressed kept) m) :
    (closeWith eval c (m₀.exec.calls.length + 1) (p.kindOf b).type (cursor.closedTo m.exec.layer) opener v).Meets
      (Shut p lenient flat c S m₀ args b) (.orderly lenient waits) m := by
  have hreenter : ∀ cursor' : Cursor, cursor' = { cursor with suppressed := none } →
      (reenter eval c (m₀.exec.calls.length + 1) cursor' (p.kindOf b).type opener v).Meets
        (Shut p lenient flat c S m₀ args b) (.orderly lenient waits) m := by
    rintro _ rfl
    exact reenter_stands he hse hs hp hR { cursor with suppressed := none } hat hin hcl rfl hbare hop hopens
      hk hv hback hclose ⟨h.underway, h.calm, h.holds.unmuted⟩
  unfold closeWith
  rcases Cursor.closedTo_cases cursor m.exec.layer with hc | ⟨hc, hle⟩
  · rw [hc]
    exact hreenter _ rfl
  · rw [hc] at h ⊢
    split
    · rename_i hsome
      obtain ⟨s, hsup⟩ := Option.isSome_iff_exists.mp hsome
      -- Inside a suppressed body nothing is kept.
      obtain rfl := hsilent s hsup (hle s hsup)
      rw [Definition.repeats_nothing] at hk
      obtain rfl := List.eq_nil_of_length_eq_zero hk
      rw [meets_bind, meets_release]
      split
      · rename_i ht
        exact h.released (fun _ => trivial)
          (.terminated hat hin (by simpa using ht) hbare (h.holds.of_exec rfl) hclose)
      · rename_i ht
        have ht := BlockType.continuation_of_closes hcl ht
        refine ⟨[], h.released (fun _ => trivial) (.continued hat hin ht (h.holds.of_exec rfl) hclose),
          fun _ => ⟨rfl, hbare⟩, fun hn => ?_⟩
        rw [hsup] at hn
        cases hn
    · rename_i hnone
      refine hreenter cursor ?_
      have : cursor.suppressed = none := by simpa using hnone
      rw [← this]

/-- Closing a body drops of the bindings none that the walk found where it came to the stretch. -/
theorem Stacked.closed (hS : S.Fits lenient m₀) (hm : m₀.Underway args m) {below : Nat} {cursor : Cursor}
    {rest : List ControlFrame} (h : Stacked p lenient c S cursor.suppressed [] m)
    (hbelow : Bodies p c lenient S cursor.suppressed below rest) (kept : List Value) :
    Stacked p lenient c S (cursor.closedTo below).suppressed kept
      (m.outOfBody (below + 1) (framesOf kept ++ (rest ++ S.control))) := by
  have hout := hm.layer_outOfBody (below + 1) (framesOf kept ++ (rest ++ S.control))
  rw [Nat.add_sub_cancel] at hout
  refine ⟨⟨rest, rfl, ?_⟩, ?_, ?_⟩
  · rw [hout]
    rcases Cursor.closedTo_cases cursor below with hc | ⟨hc, -⟩
    · rw [hc]
      exact hbelow.unmuted
    · rwa [hc]
  · obtain ⟨new, old, hbindings, hold, hnew⟩ := h.bindings
    have hdropped : (m.outOfBody (below + 1) (framesOf kept ++ (rest ++ S.control))).exec.bindings =
        m.exec.bindings.dropWhile fun x => !Exec.outlives (m₀.exec.calls.length + 1) (below + 1) x := by
      rw [← hm.calls_length]
      rfl
    have hstay : ∀ x ∈ old, Exec.outlives (m₀.exec.calls.length + 1) (below + 1) x = true := by
      refine Variable.Lasts.all_outlive hold fun x hx => ?_
      have hfits := hS.bindings x hx
      have hle := hbelow.le
      simp only [Exec.outlives, Bool.or_eq_true, Bool.and_eq_true, decide_eq_true_eq, beq_iff_eq] at hfits ⊢
      omega
    rw [hdropped, hbindings, dropWhile_append_false fun x hx => by rw [hstay x hx, Bool.not_true]]
    exact ⟨_, old, rfl, hold, fun x hx => hnew x ((List.dropWhile_suffix _).subset hx)⟩
  · rw [hout]
    intro s hs
    rcases Cursor.closedTo_cases cursor below with hc | ⟨hc, hle⟩
    · rw [hc] at hs
      cases hs
    · rw [hc] at hs
      exact ⟨(h.mute s hs).1, hle s hs⟩

/-- The innermost open body is closed by the block `b` at the cursor. -/
theorem closeBody_stands {eval : Evaluator} (he : EvaluatesWell R lenient flat waits eval) (hse : Settling eval)
    (hs : m₀.Scoped) (hp : m₀.program = p) (hR : ∀ {b}, b ∈ p.chain c → R.blocks b) (hS : S.Fits lenient m₀)
    {cursor : Cursor} {b : BlockId} (hat : (p.chain c)[cursor.position]? = some b) (hin : cursor.position < S.stop)
    (hcl : (p.kindOf b).type.closes = true) (h : Within flat m₀ args (Standing p lenient c S cursor) m) :
    (closeBody eval c (m₀.exec.calls.length + 1) cursor (p.kindOf b).type).Meets (Shut p lenient flat c S m₀ args b)
      (.orderly lenient waits) m := by
  have hbare : cursor.bareNext = false := by
    refine Bool.eq_false_iff.mpr fun hn => ?_
    obtain ⟨-, b₁, hb₁, hrep⟩ := h.holds.bare hn
    obtain rfl := Option.some.inj (hb₁.symm.trans hat)
    rw [Definition.control_of_repeats hrep] at hcl
    cases hcl
  obtain ⟨kept, hstack, hlen⟩ := h.holds.stack
  rw [hbare] at hlen
  obtain rfl := List.eq_nil_of_length_eq_zero hlen
  rw [closeBody_eq, meets_bind, meets_layerAt h.underway.calls_length h.underway.calls_ne]
  split
  · rename_i hzero
    -- Only what is let pass closes a body where none is open.
    have hlenient : lenient := by_contra fun hl => by
      have := (h.holds.closes hl).lt_layer hat hin hcl
      omega
    split
    · exact ⟨h.underway, h.calm, ⟨[], hstack, by rw [hbare]; rfl⟩, fun hn => (by rw [hbare] at hn; cases hn),
        fun hl => absurd hlenient hl⟩
    · exact .inr hlenient
  · rename_i hpos
    have hlt : S.layer < m.exec.layer := by
      by_cases hl : lenient
      · rw [hS.outer hl]
        omega
      · exact (h.holds.closes hl).lt_layer hat hin hcl
    rw [meets_bind, meets_takeBody h.underway.calls_length h.underway.calls_ne]
    obtain ⟨L, hctl, hL⟩ := hstack.frames
    rcases hL.top hlt with
      ⟨hl, v, rest, rfl⟩ | ⟨below, i, b', v, kept, rest, hlayer, rfl, hrest, hop, ho, hk, hsil, hback⟩
    · rw [show m.exec.control = .data v :: (rest ++ S.control) from hctl]
      exact .inr hl
    · have hc : m.exec.control = .body i v :: (framesOf kept ++ (rest ++ S.control)) := by
        rw [hctl]
        simp [framesOf]
      have hcontrol : flat → m.Plain → ∀ f ∈ m.exec.control, f.value.IsScalar := fun _ hp => hp.control
      rw [hc] at hcontrol ⊢
      dsimp only
      have hstack' := Stacked.closed hS h.underway hstack hrest kept
      have hout := h.underway.layer_outOfBody m.exec.layer (framesOf kept ++ (rest ++ S.control))
      have hbelow : m.exec.layer - 1 = below := by omega
      rw [← hlayer] at hstack'
      rw [hbelow] at hout ⊢
      rw [← hout] at hstack' ⊢
      refine closeWith_stands he hse hs hp hR hat hin hcl hbare hop ho hk
        (fun hf => (List.forall_mem_cons.mp (hcontrol hf (h.calm hf).1)).1) (by rwa [hout]) (fun hl => ?_)
        (by rwa [hout]) ⟨h.underway.closed hs _,
          h.calm.outOfBody _ fun hf hp => (List.forall_mem_cons.mp (hcontrol hf hp)).2, hstack'⟩
      rw [hout, ← hlayer]
      exact h.holds.closes hl

/-- A block that closes no body is about to be entered. -/
theorem Standing.facing {cursor : Cursor} {b : BlockId} (h : Within flat m₀ args (Standing p lenient c S cursor) m)
    (hat : (p.chain c)[cursor.position]? = some b) (hin : cursor.position < S.stop)
    (hcl : (p.kindOf b).type.closes = false) : Shut p lenient flat c S m₀ args b (.onward cursor none) m := by
  obtain ⟨kept, hstack, hlen⟩ := h.holds.stack
  refine ⟨kept, ⟨h.underway, h.calm, hat, hstack, fun hl => ?_, fun hl _ => h.holds.closes hl⟩, fun hsome => ?_,
    fun _ => ⟨fun _ hv => (by cases hv), ?_⟩⟩
  · have hnext := (h.holds.closes hl).next hat hin
    cases ht : (p.kindOf b).type <;> rw [ht] at hnext hcl <;> first | exact hnext | cases hcl
  · have hbare : cursor.bareNext = false := by
      refine Bool.eq_false_iff.mpr fun hn => ?_
      rw [(h.holds.bare hn).1] at hsome
      cases hsome
    rw [hbare] at hlen
    exact ⟨List.eq_nil_of_length_eq_zero hlen, hbare⟩
  · rw [Option.any_none, Bool.or_false]
    cases hn : cursor.bareNext with
    | true =>
      obtain ⟨-, b₁, hb₁, hrep⟩ := h.holds.bare hn
      obtain rfl := Option.some.inj (hb₁.symm.trans hat)
      rw [hn] at hlen
      obtain ⟨x, rfl⟩ := List.length_eq_one_iff.mp hlen
      exact .resumes x hrep (Int.natCast_nonneg _)
    | false =>
      rw [hn] at hlen
      obtain rfl := List.eq_nil_of_length_eq_zero hlen
      cases ht : (p.kindOf b).type <;> rw [ht] at hcl <;>
        first | exact .begins ht (Int.natCast_nonneg _) | exact .plain (by rw [ht]; rfl) | cases hcl

/-- A turn of the walk keeps its control stack in order. -/
theorem advance_stands {eval : Evaluator} (he : EvaluatesWell R lenient flat waits eval) (hse : Settling eval)
    (hs : m₀.Scoped) (hp : m₀.program = p) (hR : ∀ {b}, b ∈ p.chain c → R.blocks b) (hS : S.Fits lenient m₀)
    {cursor : Cursor} (hin : cursor.position < (p.chain c).length → cursor.position < S.stop)
    (h : Within flat m₀ args (Standing p lenient c S cursor) m) :
    (advance eval c (m₀.exec.calls.length + 1) cursor).Meets (Turned p lenient flat c S m₀ args) (.orderly lenient waits)
      m := by
  have hprog : m.program = p := h.underway.program.trans hp
  obtain ⟨kept, hstack, hlen⟩ := h.holds.stack
  simp only [advance_eq, blocksOf, meets_bind, meets_read, hprog]
  cases hat : (p.chain c)[cursor.position]? with
  | none => exact ⟨h.underway, h.calm, hstack.bottom⟩
  | some b =>
    have hin := hin (List.getElem?_eq_some_iff.mp hat).1
    dsimp only
    rw [meets_bind, meets_read]
    split
    · exact ⟨h.underway, h.calm, hstack.bottom⟩
    · simp only [kindOf, meets_bind, meets_read, hprog]
      have hb : R.blocks b := hR (List.mem_of_getElem? hat)
      split
      · rename_i hcl
        exact (closeBody_stands he hse hs hp hR hS hat hin hcl h).weaken fun closed k hk => takeUp_stands he hse hs hp hb hk
      · rename_i hcl
        exact takeUp_stands he hse hs hp hb (Standing.facing h hat hin (by simpa using hcl))

/-! ## Invocations -/

variable (R lenient flat waits) in
def WalksWell (walk : ChainId → Nat → Cursor → Work (Option Error)) : Prop :=
  ∀ {c m₀ args cursor m}, R.chains c → m₀.Scoped → m₀.program = p →
    Within flat m₀ args (Standing p lenient c (p.whole c m₀) cursor) m →
    (walk c (m₀.exec.calls.length + 1) cursor).Meets
      (fun _ => Within flat m₀ args fun m => ∃ L, m.exec.control = L ++ m₀.exec.control) (.orderly lenient waits) m

theorem Machine.Plain.begun (h : m₀.Plain) (ha : ∀ v ∈ args, v.IsScalar) :
    Machine.Plain { m₀ with exec.calls := { args := args } :: m₀.exec.calls } :=
  ⟨h.operands, h.control, h.bindings, List.forall_mem_cons.mpr ⟨ha, h.args⟩,
    List.forall_mem_cons.mpr ⟨fun _ h => (by cases h), h.results⟩⟩

/-- Ending an invocation frees what it has left on the stacks. -/
theorem Machine.Calm.ended (h : m₀.Calm flat m) (base : Nat) : m₀.Calm flat (ended base m) := by
  have hc := h.closed m.exec.calls.length 0
  intro hf
  obtain ⟨hp, hq⟩ := hc hf
  have hrel : ∀ v ∈ (m.exec.control.take (m.exec.control.length - base)).map (·.value), v.IsScalar := by
    intro v hv
    obtain ⟨x, hx, rfl⟩ := List.mem_map.mp hv
    exact hp.control x (List.take_subset _ _ hx)
  refine ⟨⟨hp.operands, fun f hf => hp.control f (List.drop_subset _ _ hf), hp.bindings,
    fun f hf => hp.args f (List.mem_of_mem_tail hf), fun f hf => hp.results f (List.mem_of_mem_tail hf)⟩, hq.trans ?_⟩
  exact ⟨Storage.releaseAll_scalars hrel, rfl, rfl, rfl⟩

/-- Invocations keep the control stack where what runs the chain inside them leaves it, if more, with
    what they found there. -/
theorem invokeWith_keeps {run : ChainId → Nat → Work (Option Error)}
    (hw : ∀ {c m₀ args}, R.chains c → m₀.Scoped → m₀.program = p → (flat → m₀.Plain) →
      (∀ v ∈ args, flat → v.IsScalar) →
      (run c (m₀.exec.calls.length + 1)).Meets
        (fun _ => Within flat m₀ args fun m => ∃ L, m.exec.control = L ++ m₀.exec.control) (.orderly lenient waits)
        { m₀ with exec.calls := { args := args } :: m₀.exec.calls }) :
    InvokesWell R lenient flat waits (invokeWith run) := by
  intro c args m hc hs hp hpl hargs
  simp only [invokeWith_eq, meets_bind, meets_read, meets_pushCall]
  split
  · refine (hw hc hs hp hpl hargs).weaken fun r k hk => ?_
    obtain ⟨f, hf, -⟩ := hk.underway.frame
    obtain ⟨L, hL⟩ := hk.holds
    have hctl : (ended m.exec.control.length k).exec.control = m.exec.control := by
      simp [ended, hL]
    have hcalm := Machine.Calm.ended hk.calm m.exec.control.length
    have hval : flat → (f.result.getD .nothing).IsScalar := fun hfl => by
      have hres := (hk.calm hfl).1.results f (hf ▸ List.mem_cons_self)
      cases hr : f.result with
      | none => trivial
      | some x => exact hres x hr
    unfold Meets
    rw [List.length_cons, ← hk.underway.calls_length, endCall_apply hf]
    cases r with
    | none =>
      refine ⟨hctl, hcalm, fun v hv => ?_⟩
      cases hv
      exact hval
    | some e =>
      exact ⟨hctl, hcalm.of_exec rfl (fun hfl _ => Storage.release_scalar (hval hfl)) rfl, fun _ h => (by cases h)⟩
  · exact .inl ⟨_, _, rfl⟩

/-- Where a walk through a chain begins. -/
theorem Within.begun (ht : lenient ∨ R.Tidy) (hc : R.chains c) (hpl : flat → m₀.Plain)
    (hargs : ∀ v ∈ args, flat → v.IsScalar) :
    Within flat m₀ args (Standing p lenient c (p.whole c m₀) {})
      { m₀ with exec.calls := { args := args } :: m₀.exec.calls } := by
  refine ⟨.begun m₀ args, fun hf => ⟨?_, ⟨rfl, rfl, rfl, rfl⟩⟩,
    ⟨[], ⟨⟨[], rfl, .none⟩, ⟨[], _, rfl, Variable.Lasts.all_refl _, nofun⟩, fun _ hs => nomatch hs⟩, rfl⟩,
    fun h => (by cases h), fun hl => ⟨Nat.le_refl _, ?_⟩⟩
  · exact Machine.Plain.begun (hpl hf) fun v hv => hargs v hv hf
  · have hall : ((p.outline c).take (p.chain c).length).drop 0 = p.outline c := by
      rw [List.drop_zero, Program.outline, ← List.map_take, List.take_length]
    show Balance.scan 0 0 (((p.outline c).take (p.chain c).length).drop 0) = none
    rw [hall]
    exact (ht.resolve_left hl).validated hc

/-- Evaluations, invocations and walks in a region, for any fuel. -/
theorem keeps_control (lenient flat : Prop) (ht : lenient ∨ R.Tidy) (n : Nat) :
    EvaluatesWell R lenient flat False (evaluate n) ∧ InvokesWell R lenient flat False (invoke n) ∧
      WalksWell R lenient flat False (walk n) := by
  induction n with
  | zero =>
    refine ⟨?_, ?_, ?_⟩
    · intro b index mark bare prior kept K m _ _ _ _ _
      rw [evaluate]
      trivial
    · intro c args m _ _ _ _ _
      rw [invoke]
      trivial
    · intro c m₀ args cursor m _ _ _ _
      rw [walk]
      trivial
  | succ n ih =>
    obtain ⟨he, hi, hw⟩ := ih
    obtain ⟨hse, hr, -⟩ := keeps_scopes n
    refine ⟨?_, ?_, ?_⟩
    · rw [evaluate]
      exact evaluateWith_serves he hse hi hr ht
    · rw [invoke]
      exact invokeWith_keeps fun hc hs hp hpl hargs => hw hc hs hp (Within.begun ht hc hpl hargs)
    · intro c m₀ args cursor m hc hs hp h
      rw [walk, meets_bind']
      refine (advance_stands he hse hs hp (R.listed hc) (hs.whole p c lenient) id h).weaken fun turn k hk => ?_
      cases turn with
      | next cursor => exact hw hc hs hp hk
      | stop error => exact hk

/-- An invocation in a region that ends leaves the control stack as it found it. -/
theorem invoke_keeps_control (R : Region m.program) (lenient flat : Prop) (ht : lenient ∨ R.Tidy) (n : Nat)
    (hc : R.chains c) (hs : m.Scoped) (hpl : flat → m.Plain) (hargs : ∀ v ∈ args, flat → v.IsScalar) :
    (invoke n c args).Meets
      (fun r k => k.exec.control = m.exec.control ∧ m.Calm flat k ∧ ∀ v, r = .ok v → flat → v.IsScalar)
      (.orderly lenient False) m :=
  (keeps_control lenient flat ht n).2.1 hc hs rfl hpl hargs

end Work

end BlockEngine
