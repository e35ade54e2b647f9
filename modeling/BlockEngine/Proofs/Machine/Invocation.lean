/-
  BlockEngine.Proofs.Machine.Invocation — what an invocation leaves behind, whatever the natives do.

  Proved of every program and all natives:
  - `evaluate_carries`: evaluating a block leaves operands, frames and tags as they were, up to new
    bindings of the innermost open body and the result of the innermost invocation.
  - `invoke_restores_frames`: an invocation that ends leaves operands, frames and tags as they were.
  - `worker_scoped`: every machine that a run shows is scoped.
-/

import BlockEngine.Proofs.Machine.Scope
import BlockEngine.Run.Worker

namespace BlockEngine

open List (Forall₂)

/-! ## An invocation under way -/

/-- The machine is at work on an invocation that was begun on `m₀` with the given arguments. -/
structure Machine.Underway (m₀ : Machine) (args : List Value) (m : Machine) : Prop where
  program : m.program = m₀.program
  limits : m.exec.limits = m₀.exec.limits
  operands : m.exec.operands = m₀.exec.operands
  eval : m.exec.eval = m₀.exec.eval
  frame : ∃ f, m.exec.calls = f :: m₀.exec.calls ∧ f.args = args
  bindings : ∃ own old, m.exec.bindings = own ++ old ∧ Forall₂ Variable.Lasts m₀.exec.bindings old ∧
    Owned (m₀.exec.calls.length + 1) m.exec.layer (own.map Variable.tag)

namespace Machine.Underway

variable {m₀ m k : Machine} {args : List Value}

theorem tags (h : m₀.Underway args m) :
    ∃ own, m.exec.tags = own ++ m₀.exec.tags ∧ Owned (m₀.exec.calls.length + 1) m.exec.layer own := by
  obtain ⟨own, old, he, hold, ho⟩ := h.bindings
  refine ⟨own.map Variable.tag, ?_, ho⟩
  rw [Exec.tags, he, List.map_append, Variable.Lasts.map_tag hold]
  rfl

theorem begun (m₀ : Machine) (args : List Value) :
    m₀.Underway args { m₀ with exec.calls := { args := args } :: m₀.exec.calls } :=
  ⟨rfl, rfl, rfl, rfl, ⟨_, rfl, rfl⟩, [], _, rfl, Variable.Lasts.all_refl _, .nil _ _⟩

theorem toScoped (h : m₀.Underway args m) (hs : m₀.Scoped) : m.Scoped := by
  obtain ⟨f, hf, -⟩ := h.frame
  obtain ⟨own, ht, ho⟩ := h.tags
  unfold Machine.Scoped
  rw [hf]
  refine ⟨own, m₀.exec.tags, ht, ?_, hs⟩
  simpa only [Exec.layer, hf] using ho

theorem calls_ne (h : m₀.Underway args m) : m.exec.calls ≠ [] := by
  obtain ⟨f, hf, -⟩ := h.frame
  rw [hf]
  exact List.cons_ne_nil _ _

theorem calls_length (h : m₀.Underway args m) : m.exec.calls.length = m₀.exec.calls.length + 1 := by
  obtain ⟨f, hf, -⟩ := h.frame
  rw [hf, List.length_cons]

/-- Evaluating a block, or anything that touches no more, goes on with the invocation. -/
theorem carries (h : m₀.Underway args m) (hk : m.Carries k) (hv : k.exec.eval = m.exec.eval)
    (ho : k.exec.operands = m.exec.operands) : m₀.Underway args k := by
  obtain ⟨f, hf, ha⟩ := h.frame
  obtain ⟨own, old, hb, hold, hown⟩ := h.bindings
  obtain ⟨new, rest, hn, hrest, hnew⟩ := hk.bindings
  rw [hb] at hrest
  obtain ⟨own', old', rfl, htags, hold'⟩ := Variable.Lasts.all_append hrest hold
  refine ⟨hk.program.trans h.program, hk.limits.trans h.limits, ho.trans h.operands, hv.trans h.eval, ?_,
    new ++ own', old', by rw [hn, List.append_assoc], hold', ?_⟩
  · have hfr := hk.frames
    rw [hf] at hfr
    generalize k.exec.calls = b at hfr
    cases hfr with
    | cons _ _ r => exact ⟨_, rfl, ha⟩
  · rw [hk.layer_eq, List.map_append, htags]
    exact hown.append (List.forall_mem_map.mpr fun x hx => h.calls_length ▸ hnew x hx)

/-- With as many bodies open, no more than its result has changed of the frame. -/
theorem sameFrames (h : m₀.Underway args m) (h' : m₀.Underway args k) (hl : k.exec.layer = m.exec.layer) :
    SameFrames m.exec.calls k.exec.calls := by
  obtain ⟨f, hf, ha⟩ := h.frame
  obtain ⟨f', hf', ha'⟩ := h'.frame
  have hframe : f' = { f with result := f'.result } := by
    simp only [Exec.layer, hf, hf'] at hl
    obtain ⟨args', layer, result⟩ := f'
    subst ha' hl ha
    rfl
  rw [hf, hf', hframe]
  exact .cons f _ _

/-- Control frames, storage and the world outside do not matter. -/
theorem of_eq (h : m₀.Underway args m) (hp : k.program = m.program)
    (he : k.exec = { m.exec with control := k.exec.control, cancelled := k.exec.cancelled }) :
    m₀.Underway args k := by
  refine h.carries (.of_eq hp ?_ ?_ ?_) ?_ ?_ <;> rw [he]
  exact .refl _

end Machine.Underway

structure Machine.Works (p : Program) (m : Machine) : Prop where
  program : m.program = p
  calls : m.exec.calls ≠ []
  scopes : m.Scoped

theorem Machine.Works.carries {p : Program} {m k : Machine} (h : m.Works p) (hk : m.Carries k) : k.Works p :=
  ⟨hk.program.trans h.program, hk.calls_ne h.calls, hk.toScoped h.calls h.scopes⟩

theorem Machine.Underway.works {p : Program} {m₀ m : Machine} {args : List Value} (h : m₀.Underway args m)
    (hs : m₀.Scoped) (hp : m₀.program = p) : m.Works p := ⟨h.program.trans hp, h.calls_ne, h.toScoped hs⟩

/-- The invocation was begun on some machine. -/
theorem Machine.Works.underway {p : Program} {m : Machine} (h : m.Works p) :
    ∃ (m₀ : Machine) (args : List Value), m₀.Scoped ∧ m₀.program = p ∧ m₀.Underway args m := by
  obtain ⟨hp, hc, hs⟩ := h
  obtain ⟨f, fs, hcalls⟩ := List.exists_cons_of_ne_nil hc
  unfold Machine.Scoped at hs
  rw [hcalls] at hs
  obtain ⟨own, rest, htags, hown, hrest⟩ := hs
  have hleft : (m.exec.bindings.drop own.length).map Variable.tag = rest := by
    rw [List.map_drop]
    show m.exec.tags.drop own.length = rest
    rw [htags, List.drop_left]
  refine ⟨{ m with exec.calls := fs, exec.bindings := m.exec.bindings.drop own.length }, f.args, ?_, hp,
    ⟨rfl, rfl, rfl, rfl, ⟨f, hcalls, rfl⟩, m.exec.bindings.take own.length, _, (List.take_append_drop _ _).symm,
      Variable.Lasts.all_refl _, ?_⟩⟩
  · show BlockEngine.Scoped fs ((m.exec.bindings.drop own.length).map Variable.tag)
    rwa [hleft]
  · show Owned (fs.length + 1) m.exec.layer ((m.exec.bindings.take own.length).map Variable.tag)
    have htaken : (m.exec.bindings.take own.length).map Variable.tag = own := by
      rw [List.map_take]
      show m.exec.tags.take own.length = own
      rw [htags, List.take_left]
    rw [Exec.layer, hcalls, htaken]
    exact hown

namespace Exec

def withLayer (layer : Nat) (x : Exec) : Exec :=
  { x with calls := x.calls.modifyHead fun f => { f with layer := layer } }

/-- The interpreter with the bindings dropped of bodies closed down to a layer. -/
def closed (depth layer : Nat) (x : Exec) : Exec :=
  { x with bindings := x.bindings.dropWhile fun v => !outlives depth layer v }

theorem tags_closed (depth layer : Nat) (x : Exec) :
    (x.closed depth layer).tags = x.tags.dropWhile fun t => !t.outlives depth layer := by
  simp only [closed, tags, List.dropWhile_map]
  rfl

end Exec

namespace Machine

def inBody (i : Nat) (v : Value) (m : Machine) : Machine :=
  { m with exec := { m.exec.withLayer (m.exec.layer + 1) with control := .body i v :: m.exec.control } }

/-- The machine with the innermost of `layer` open bodies closed and `rest` left of the control
    stack. -/
def outOfBody (layer : Nat) (rest : List ControlFrame) (m : Machine) : Machine :=
  { m with
    exec := ({ m.exec with control := rest }.closed m.exec.calls.length layer).withLayer (layer - 1)
    storage := m.storage.releaseAll
      ((m.exec.bindings.takeWhile fun v => !Exec.outlives m.exec.calls.length layer v).map (·.value)) }

end Machine

namespace Machine.Underway

variable {m₀ m : Machine} {args : List Value}

theorem withLayer (h : m₀.Underway args m) {layer : Nat}
    (hl : ∃ own old, m.exec.bindings = own ++ old ∧ Forall₂ Variable.Lasts m₀.exec.bindings old ∧
      Owned (m₀.exec.calls.length + 1) layer (own.map Variable.tag)) :
    m₀.Underway args { m with exec := m.exec.withLayer layer } := by
  obtain ⟨f, hf, ha⟩ := h.frame
  refine ⟨h.program, h.limits, h.operands, h.eval, ⟨{ f with layer := layer }, ?_, ha⟩, ?_⟩
  · simp [Exec.withLayer, hf]
  · simpa [Exec.withLayer, Exec.layer, hf] using hl

/-- A new body opens. -/
theorem opened (h : m₀.Underway args m) (i : Nat) (v : Value) : m₀.Underway args (m.inBody i v) := by
  obtain ⟨own, old, hb, hold, ho⟩ := h.bindings
  have hl : m₀.Underway args { m with exec := m.exec.withLayer (m.exec.layer + 1) } :=
    h.withLayer ⟨own, old, hb, hold, ho.of_suffix (List.suffix_refl _) fun t ht => Nat.le_succ_of_le (ho.within t ht).2⟩
  exact hl.of_eq rfl rfl

/-- Closing bodies down to a layer drops their bindings, and none from before the invocation. -/
theorem closed_bindings (h : m₀.Underway args m) (hs : m₀.Scoped) (layer : Nat) :
    ∃ kept old, (m.exec.closed m.exec.calls.length layer).bindings = kept ++ old ∧
      Forall₂ Variable.Lasts m₀.exec.bindings old ∧
      Owned (m₀.exec.calls.length + 1) m.exec.layer (kept.map Variable.tag) ∧
      ∀ t ∈ kept.map Variable.tag, t.layer < layer := by
  obtain ⟨own, old, hb, hold, ho⟩ := h.bindings
  let gone := fun v : Variable => !Exec.outlives m.exec.calls.length layer v
  have hstay : ∀ v ∈ old, Exec.outlives m.exec.calls.length layer v = true := by
    refine Variable.Lasts.all_outlive hold fun v hv => ?_
    have hd : v.depth < m₀.exec.calls.length + 1 := Nat.lt_succ_of_le (hs.depth_le v.tag (List.mem_map_of_mem hv))
    simp [Exec.outlives, h.calls_length, hd]
  have hclosed : (m.exec.closed m.exec.calls.length layer).bindings = own.dropWhile gone ++ old := by
    show m.exec.bindings.dropWhile gone = _
    rw [hb, dropWhile_append_false fun v hv => by simp [gone, hstay v hv]]
  have hkept : (own.dropWhile gone).map Variable.tag =
      (own.map Variable.tag).dropWhile fun t => !t.outlives (m₀.exec.calls.length + 1) layer := by
    rw [List.dropWhile_map, ← h.calls_length]
    rfl
  have hsuffix := (List.dropWhile_suffix gone (l := own)).map Variable.tag
  exact ⟨_, old, hclosed, hold, ho.of_suffix hsuffix fun t ht => (ho.within t (hsuffix.subset ht)).2,
    hkept ▸ ho.dropWhile layer⟩

/-- The innermost body closes, and its bindings go. -/
theorem closed (h : m₀.Underway args m) (hs : m₀.Scoped) (rest : List ControlFrame) :
    m₀.Underway args (m.outOfBody m.exec.layer rest) := by
  obtain ⟨kept, old, hb, hold, ho, hlayers⟩ := h.closed_bindings hs m.exec.layer
  have hkept := ho.of_suffix (List.suffix_refl _) fun t ht => Nat.le_of_lt (hlayers t ht)
  have hm : m₀.Underway args { m with exec := m.exec.closed m.exec.calls.length m.exec.layer } :=
    ⟨h.program, h.limits, h.operands, h.eval, h.frame, kept, old, hb, hold, hkept⟩
  have hl := hm.withLayer ⟨kept, old, hb, hold,
    hkept.of_suffix (l := m.exec.layer - 1) (List.suffix_refl _) fun t ht => Nat.le_sub_one_of_lt (hlayers t ht)⟩
  exact hl.of_eq rfl rfl

theorem layer_inBody (h : m₀.Underway args m) (i : Nat) (v : Value) :
    (m.inBody i v).exec.layer = m.exec.layer + 1 := by
  obtain ⟨f, hf, -⟩ := h.frame
  simp [Machine.inBody, Exec.withLayer, Exec.layer, hf]

theorem layer_outOfBody (h : m₀.Underway args m) (layer : Nat) (rest : List ControlFrame) :
    (m.outOfBody layer rest).exec.layer = layer - 1 := by
  obtain ⟨f, hf, -⟩ := h.frame
  simp [Machine.outOfBody, Exec.closed, Exec.withLayer, Exec.layer, hf]

/-- No binding is one of a body yet to be opened. -/
theorem outlives (h : m₀.Underway args m) (hs : m₀.Scoped) {v : Variable} (hv : v ∈ m.exec.bindings) :
    Exec.outlives m.exec.calls.length (m.exec.layer + 1) v = true := by
  obtain ⟨own, ht, ho⟩ := h.tags
  have hmem : v.tag ∈ own ++ m₀.exec.tags := ht ▸ List.mem_map_of_mem hv
  rw [h.calls_length]
  rcases List.mem_append.mp hmem with hmem | hmem
  · have hd : v.depth = m₀.exec.calls.length + 1 := (ho.within _ hmem).1
    have hl : v.layer ≤ m.exec.layer := (ho.within _ hmem).2
    simp [Exec.outlives, hd, Nat.lt_succ_of_le hl]
  · have hd : v.depth ≤ m₀.exec.calls.length := hs.depth_le _ hmem
    simp [Exec.outlives, Nat.lt_succ_of_le hd]

/-- Closing a body in which nothing was done leaves no trace of it. -/
theorem outOfBody_inBody (h : m₀.Underway args m) (hs : m₀.Scoped) (i : Nat) (v : Value) :
    (m.inBody i v).outOfBody (m.exec.layer + 1) m.exec.control = m := by
  obtain ⟨f, hf, -⟩ := h.frame
  have hall : ∀ x ∈ m.exec.bindings, Exec.outlives m.exec.calls.length (m.exec.layer + 1) x = true :=
    fun x hx => h.outlives hs hx
  have hdrop : m.exec.bindings.dropWhile (fun v => !Exec.outlives m.exec.calls.length (m.exec.layer + 1) v) =
      m.exec.bindings := by
    cases hb : m.exec.bindings with
    | nil => rfl
    | cons x xs => simp [hall x (hb ▸ List.mem_cons_self)]
  have htake : m.exec.bindings.takeWhile (fun v => !Exec.outlives m.exec.calls.length (m.exec.layer + 1) v) =
      [] := by
    cases hb : m.exec.bindings with
    | nil => rfl
    | cons x xs => simp [hall x (hb ▸ List.mem_cons_self)]
  obtain ⟨mp, mx, ms, mh, mj⟩ := m
  obtain ⟨limits, operands, control, bindings, calls, eval, running, cancelled⟩ := mx
  dsimp only at hf hdrop htake
  subst hf
  simp only [Machine.inBody, Machine.outOfBody, Exec.withLayer, Exec.closed, List.modifyHead_cons,
    List.length_cons, hdrop, htake, Storage.releaseAll, List.map_nil, List.foldl_nil] at *
  simp only [Exec.layer, Nat.add_sub_cancel]

end Machine.Underway

/-! ## The walk -/

def Cursor.closedTo (layer : Nat) (cursor : Cursor) : Cursor :=
  if cursor.suppressed.any (layer < ·) then { cursor with suppressed := none } else cursor

namespace Work

/-- Closes the innermost of `layer` open bodies: its frame and its bindings go. -/
def takeBody (depth layer : Nat) : Work (Nat × Value) := do
  let frame ← popBody
  closeScope depth layer
  setLayer depth (layer - 1)
  return frame

/-- What closing a body comes to, once it is closed that the block at the cursor closes. -/
def closeWith (eval : Evaluator) (c : ChainId) (depth : Nat) (t : BlockType) (cursor : Cursor)
    (opener : Nat) (v : Value) : Work Closed := do
  if cursor.suppressed.isSome then
    release v
    if t == .terminator then
      return .over (.next { cursor with position := cursor.position + 1 })
    else return .onward cursor none
  else reenter eval c depth cursor t opener v

theorem closeBody_eq (eval : Evaluator) (c : ChainId) (depth : Nat) (cursor : Cursor) (t : BlockType) :
    closeBody eval c depth cursor t = (do
      let layer ← layerAt depth
      if layer = 0 then
        if t == .continuation then
          return .over (.next { cursor with position := cursor.position + 1 })
        else crash (stackFault .control .pop (← read (·.exec.limits.control)))
      else
        let (opener, v) ← takeBody depth layer
        closeWith eval c depth t (cursor.closedTo (layer - 1)) opener v) := by
  simp only [closeBody, takeBody, Work.bind_assoc, pure_bind]
  rfl

/-- What is left of a turn once the body is closed that the block at the cursor closes. -/
def takeUp (eval : Evaluator) (c : ChainId) (depth : Nat) (b : BlockId) (t : BlockType) : Closed → Work Turn
  | .over turn => return turn
  | .onward cursor prior =>
    if cursor.suppressed.isSome then passOver depth cursor t else enter eval c depth cursor b t prior

theorem advance_eq (eval : Evaluator) (c : ChainId) (depth : Nat) (cursor : Cursor) :
    advance eval c depth cursor = (do
      match (← blocksOf c)[cursor.position]? with
      | none => return .stop none
      | some b =>
        match ← read (·.exec.cancelled) with
        | some cause => return .stop (some (.cancelled cause))
        | none =>
          let d ← kindOf b
          let closed ←
            (if d.type.closes then closeBody eval c depth cursor d.type else pure (.onward cursor none))
          takeUp eval c depth b d.type closed) := by
  unfold advance
  congr 1
  funext bs
  cases bs[cursor.position]? with
  | none => rfl
  | some b =>
    dsimp only
    congr 1
    funext cancelled
    cases cancelled with
    | some cause => rfl
    | none =>
      dsimp only
      congr 1
      funext d
      split <;> rfl

theorem meets_popBody {Q : Nat × Value → Machine → Prop} {E : Exits} {m : Machine} :
    popBody.Meets Q E m ↔
      match m.exec.control with
      | .body i v :: rest => Q (i, v) { m with exec.control := rest }
      | .data _ :: rest =>
        E.fault (stackFault .control .frame m.exec.limits.control) { m with exec.control := rest }
      | [] => E.fault (stackFault .control .pop m.exec.limits.control) m := by
  unfold Meets popBody
  rcases m.exec.control with - | ⟨⟨i, v⟩ | v, rest⟩ <;> exact Iff.rfl

section

variable {m : Machine} {depth : Nat} (hd : m.exec.calls.length = depth) (hc : m.exec.calls ≠ [])
include hd hc

theorem frame?_top : m.exec.frame? depth = m.exec.calls.head? := by
  cases hm : m.exec.calls with
  | nil => exact absurd hm hc
  | cons f fs => subst hd; simp [Exec.frame?, hm]

theorem layerAt_apply : layerAt depth m = .done m.exec.layer m := by
  simp only [layerAt, read, frame?_top hd hc, Exec.layer]
  cases m.exec.calls <;> rfl

theorem setLayer_apply (layer : Nat) :
    setLayer depth layer m = .done () { m with exec := m.exec.withLayer layer } := by
  cases hm : m.exec.calls with
  | nil => exact absurd hm hc
  | cons f fs => subst hd; simp [setLayer, mapExec, modify, Exec.mapFrame, Exec.withLayer, hm]

theorem isFinished_apply :
    isFinished depth m = .done ((m.exec.calls.head?.bind (·.result)).isSome) m := by
  simp only [isFinished, read, frame?_top hd hc]
  cases m.exec.calls <;> rfl

theorem meets_layerAt {Q : Nat → Machine → Prop} {E : Exits} :
    (layerAt depth).Meets Q E m ↔ Q m.exec.layer m := by
  unfold Meets
  rw [layerAt_apply hd hc]
  exact Iff.rfl

theorem openBody_apply (i : Nat) (v : Value) :
    openBody depth i v m =
      if m.exec.control.length < m.exec.limits.control then .done (m.exec.layer + 1) (m.inBody i v)
      else .fault (stackFault .control .push m.exec.limits.control) m := by
  unfold openBody
  rw [bind_apply, pushControl]
  split
  · let k : Machine := { m with exec.control := .body i v :: m.exec.control }
    show (layerAt depth >>= _) k = _
    rw [bind_apply, layerAt_apply (m := k) hd hc]
    show (setLayer depth _ >>= _) k = _
    rw [bind_apply, setLayer_apply (m := k) hd hc]
    rfl
  · rfl

theorem takeBody_apply {i : Nat} {v : Value} {rest : List ControlFrame}
    (hm : m.exec.control = .body i v :: rest) (layer : Nat) :
    takeBody depth layer m = .done (i, v) (m.outOfBody layer rest) := by
  let k : Machine :=
    { m with
      exec := { m.exec with control := rest }.closed depth layer
      storage := m.storage.releaseAll
        ((m.exec.bindings.takeWhile fun v => !Exec.outlives depth layer v).map (·.value)) }
  have hp : popBody m = .done (i, v) { m with exec.control := rest } := by
    unfold popBody
    rw [hm]
  have hs : closeScope depth layer { m with exec.control := rest } = .done () k := rfl
  unfold takeBody
  rw [bind_apply, hp]
  show (closeScope depth layer >>= _) _ = _
  rw [bind_apply, hs]
  show (setLayer depth _ >>= _) k = _
  rw [bind_apply, setLayer_apply (m := k) hd hc]
  subst hd
  rfl

theorem meets_openBody {Q : Nat → Machine → Prop} {E : Exits} (i : Nat) (v : Value) :
    (openBody depth i v).Meets Q E m ↔
      if m.exec.control.length < m.exec.limits.control then Q (m.exec.layer + 1) (m.inBody i v)
      else E.fault (stackFault .control .push m.exec.limits.control) m := by
  unfold Meets
  rw [openBody_apply hd hc]
  split <;> exact Iff.rfl

/-- Closing a body takes its frame and drops its bindings. -/
theorem meets_takeBody {Q : Nat × Value → Machine → Prop} {E : Exits} (layer : Nat) :
    (takeBody depth layer).Meets Q E m ↔
      match m.exec.control with
      | .body i v :: rest => Q (i, v) (m.outOfBody layer rest)
      | .data _ :: rest =>
        E.fault (stackFault .control .frame m.exec.limits.control) { m with exec.control := rest }
      | [] => E.fault (stackFault .control .pop m.exec.limits.control) m := by
  cases hm : m.exec.control with
  | nil => simp only [takeBody, meets_bind, meets_popBody, hm]
  | cons f rest =>
    cases f with
    | body i v =>
      unfold Meets
      rw [takeBody_apply hd hc hm]
      exact Iff.rfl
    | data v => simp only [takeBody, meets_bind, meets_popBody, hm]

/-- Closing the innermost of some open bodies. -/
theorem closeBody_apply {eval : Evaluator} {c : ChainId} {cursor : Cursor} {t : BlockType} {layer i : Nat} {v : Value}
    {rest : List ControlFrame} (hl : m.exec.layer = layer + 1) (hm : m.exec.control = .body i v :: rest) :
    closeBody eval c depth cursor t m =
      closeWith eval c depth t (cursor.closedTo layer) i v (m.outOfBody (layer + 1) rest) := by
  rw [closeBody_eq, bind_apply, layerAt_apply hd hc, hl]
  show (takeBody depth (layer + 1) >>= _) m = _
  rw [bind_apply, takeBody_apply hd hc hm]
  rfl

end

theorem meets_blockAt {Q : BlockId → Machine → Prop} {E : Exits} {m : Machine} (c : ChainId) (i : Nat) :
    (blockAt c i).Meets Q E m ↔
      match (m.program.chain c)[i]? with
      | some b => Q b m
      | none => E.fault (.error (.access (.index i (m.program.chain c).length))) m := by
  simp only [blockAt, blocksOf, meets_bind, meets_read]
  cases (m.program.chain c)[i]? <;> exact Iff.rfl

section

variable {m₀ : Machine} {args : List Value} {eval : Evaluator} {m : Machine}

/-- Work goes on with the invocation begun on `m₀` and stops only on scoped machines. -/
def GoesOn {α : Type} (m₀ : Machine) (args : List Value) (w : Work α) (m : Machine) : Prop :=
  w.Meets (fun _ k => m₀.Underway args k) (.all Machine.Scoped) m

theorem goesOn_eval (he : Settling eval) (hs : m₀.Scoped) (h : m₀.Underway args m) (b : BlockId)
    (index : Int) (mark : Marker) (bare : Bool) (prior : Option Value) :
    GoesOn m₀ args (eval b index mark bare prior) m :=
  (he b index mark bare prior m h.calls_ne (h.toScoped hs)).weaken fun _ _ hk =>
    h.carries hk.1 hk.2.1 hk.2.2

theorem goesOn_openBody (hs : m₀.Scoped) (h : m₀.Underway args m) (i : Nat) (v : Value) :
    GoesOn m₀ args (openBody (m₀.exec.calls.length + 1) i v) m := by
  unfold GoesOn
  rw [meets_openBody h.calls_length h.calls_ne]
  split
  · exact h.opened i v
  · exact h.toScoped hs

theorem goesOn_release (h : m₀.Underway args m) (v : Value) : GoesOn m₀ args (release v) m :=
  h.of_eq rfl rfl

theorem goesOn_blockAt (hs : m₀.Scoped) (h : m₀.Underway args m) (c : ChainId) (i : Nat) :
    GoesOn m₀ args (blockAt c i) m := by
  unfold GoesOn
  rw [meets_blockAt]
  split
  · exact h
  · exact h.toScoped hs

theorem goesOn_bind {α β : Type} {w : Work α} {f : α → Work β} (hw : GoesOn m₀ args w m)
    (hf : ∀ a k, m₀.Underway args k → GoesOn m₀ args (f a) k) : GoesOn m₀ args (w >>= f) m := by
  unfold GoesOn
  rw [meets_bind]
  exact hw.weaken fun a k hk => hf a k hk

theorem goesOn_badJump (hs : m₀.Scoped) (h : m₀.Underway args m) (c : ChainId) (i : Nat) :
    GoesOn m₀ args (badJump c i) m :=
  goesOn_bind (goesOn_blockAt hs h c i) fun _ _ hk => hk

theorem goesOn_reenter (he : Settling eval) (hs : m₀.Scoped) (h : m₀.Underway args m) (c : ChainId)
    (cursor : Cursor) (t : BlockType) (opener : Nat) (v : Value) :
    GoesOn m₀ args (reenter eval c (m₀.exec.calls.length + 1) cursor t opener v) m := by
  refine goesOn_bind (goesOn_blockAt hs h c opener) fun b k hk => ?_
  refine goesOn_bind (goesOn_eval he hs hk _ _ _ _ _) fun r k hk => ?_
  split
  · exact hk
  · refine goesOn_bind (w := isFinished _) hk fun finished k hk => ?_
    split
    · exact goesOn_bind (goesOn_release hk _) fun _ _ hk => hk
    · split
      · refine goesOn_bind (goesOn_release hk _) fun _ k hk => ?_
        refine goesOn_bind (w := blocksOf c) hk fun bs k hk => ?_
        split
        · exact goesOn_bind (goesOn_badJump hs hk c opener) fun _ _ hk => hk
        · exact hk
      · split
        · exact goesOn_bind (goesOn_release hk _) fun _ _ hk => hk
        · exact hk

theorem goesOn_takeBody (hs : m₀.Scoped) (h : m₀.Underway args m) :
    GoesOn m₀ args (takeBody (m₀.exec.calls.length + 1) m.exec.layer) m := by
  unfold GoesOn
  rw [meets_takeBody h.calls_length h.calls_ne]
  split
  · exact h.closed hs _
  · rename_i v rest hm
    exact (h.of_eq (k := { m with exec.control := rest }) rfl rfl).toScoped hs
  · exact h.toScoped hs

theorem goesOn_closeWith (he : Settling eval) (hs : m₀.Scoped) (h : m₀.Underway args m) (c : ChainId)
    (t : BlockType) (cursor : Cursor) (opener : Nat) (v : Value) :
    GoesOn m₀ args (closeWith eval c (m₀.exec.calls.length + 1) t cursor opener v) m := by
  unfold closeWith
  split
  · refine goesOn_bind (goesOn_release h v) fun _ k hk => ?_
    split
    · exact hk
    · exact hk
  · exact goesOn_reenter he hs h c _ t _ _

theorem goesOn_closeBody (he : Settling eval) (hs : m₀.Scoped) (h : m₀.Underway args m) (c : ChainId)
    (cursor : Cursor) (t : BlockType) :
    GoesOn m₀ args (closeBody eval c (m₀.exec.calls.length + 1) cursor t) m := by
  unfold GoesOn
  rw [closeBody_eq, meets_bind, meets_layerAt h.calls_length h.calls_ne]
  split
  · split
    · exact h
    · exact h.toScoped hs
  · exact goesOn_bind (goesOn_takeBody hs h) fun _ _ hk => goesOn_closeWith he hs hk c t _ _ _

theorem goesOn_leave (hs : m₀.Scoped) (h : m₀.Underway args m) (c : ChainId) (cursor : Cursor)
    (position target : Nat) (v : Value) (skip : Bool) :
    GoesOn m₀ args (leave c (m₀.exec.calls.length + 1) cursor position target v skip) m := by
  refine goesOn_bind (goesOn_blockAt hs h c position) fun b k hk => ?_
  refine goesOn_bind (w := kindOf b) hk fun d k hk => ?_
  split
  · exact goesOn_bind (goesOn_openBody hs hk position v) fun _ _ hk => hk
  · exact goesOn_bind (goesOn_release hk v) fun _ _ hk => hk

theorem goesOn_redirect (he : Settling eval) (hs : m₀.Scoped) (h : m₀.Underway args m) (c : ChainId)
    (cursor : Cursor) (target : Nat) (v : Value) :
    GoesOn m₀ args (redirect eval c (m₀.exec.calls.length + 1) cursor target v) m := by
  refine goesOn_bind (goesOn_blockAt hs h c target) fun b k hk => ?_
  refine goesOn_bind (goesOn_eval he hs hk _ _ _ _ _) fun r k hk => ?_
  split
  · exact hk
  · refine goesOn_bind (w := isFinished _) hk fun finished k hk => ?_
    split
    · exact goesOn_bind (goesOn_release hk _) fun _ _ hk => hk
    · exact goesOn_bind (w := blocksOf c) hk fun _ k hk => goesOn_leave hs hk c cursor target _ _ _

theorem goesOn_enter (he : Settling eval) (hs : m₀.Scoped) (h : m₀.Underway args m) (c : ChainId)
    (cursor : Cursor) (b : BlockId) (t : BlockType) (prior : Option Value) :
    GoesOn m₀ args (enter eval c (m₀.exec.calls.length + 1) cursor b t prior) m := by
  refine goesOn_bind (goesOn_eval he hs h _ _ _ _ _) fun r k hk => ?_
  split
  · exact hk
  · refine goesOn_bind (w := isFinished _) hk fun finished k hk => ?_
    split
    · exact goesOn_bind (goesOn_release hk _) fun _ _ hk => hk
    · split
      · exact goesOn_leave hs hk c _ _ _ _ _
      · refine goesOn_bind (w := blocksOf c) hk fun bs k hk => ?_
        dsimp only
        split
        · refine goesOn_bind (goesOn_release hk _) fun _ k hk => ?_
          exact goesOn_bind (goesOn_badJump hs hk c _) fun _ _ hk => hk
        · split
          · exact goesOn_redirect he hs hk c _ _ _
          · exact goesOn_leave hs hk c _ _ _ _ _

theorem goesOn_passOver (hs : m₀.Scoped) (h : m₀.Underway args m) (cursor : Cursor) (t : BlockType) :
    GoesOn m₀ args (passOver (m₀.exec.calls.length + 1) cursor t) m := by
  unfold passOver
  dsimp only
  split
  · exact goesOn_bind (goesOn_openBody hs h _ _) fun _ _ hk => hk
  · exact h

theorem goesOn_takeUp (he : Settling eval) (hs : m₀.Scoped) (h : m₀.Underway args m) (c : ChainId)
    (b : BlockId) (t : BlockType) (closed : Closed) :
    GoesOn m₀ args (takeUp eval c (m₀.exec.calls.length + 1) b t closed) m := by
  cases closed with
  | onward cursor prior =>
    simp only [takeUp]
    split
    · exact goesOn_passOver hs h _ _
    · exact goesOn_enter he hs h c _ _ _ _
  | _ => exact h

theorem goesOn_advance (he : Settling eval) (hs : m₀.Scoped) (h : m₀.Underway args m) (c : ChainId)
    (cursor : Cursor) : GoesOn m₀ args (advance eval c (m₀.exec.calls.length + 1) cursor) m := by
  rw [advance_eq]
  refine goesOn_bind (w := blocksOf c) h fun bs k hk => ?_
  split
  · exact hk
  · refine goesOn_bind (w := read _) hk fun cancelled k hk => ?_
    split
    · exact hk
    · refine goesOn_bind (w := kindOf _) hk fun d k hk => ?_
      refine goesOn_bind ?_ fun closed k hk => goesOn_takeUp he hs hk c _ _ _
      split
      · exact goesOn_closeBody he hs hk c cursor _
      · exact hk

end

/-! ## Invocations -/

def Walking (walk : ChainId → Nat → Work (Option Error)) : Prop :=
  ∀ c m₀ args m, m₀.Scoped → m₀.Underway args m →
    GoesOn m₀ args (walk c (m₀.exec.calls.length + 1)) m

def endCall (depth base : Nat) : Work Value := do
  closeScope depth 0
  truncateControl base
  let v ← takeResult depth
  popCall
  return v

theorem invokeWith_eq (walk : ChainId → Nat → Work (Option Error)) (c : ChainId) (args : List Value) :
    invokeWith walk c args = (do
      let base ← read (·.exec.control.length)
      pushCall { args := args }
      let depth ← read (·.exec.calls.length)
      let error ← walk c depth
      let v ← endCall depth base
      match error with
      | some e =>
        release v
        return .error e
      | none => return .ok v) := by
  unfold invokeWith
  refine bind_congr fun base => bind_congr fun _ => bind_congr fun depth => bind_congr fun error => ?_
  cases error <;> simp only [endCall, Work.bind_assoc, pure_bind]

def ended (base : Nat) (m : Machine) : Machine :=
  let gone := m.exec.bindings.takeWhile fun v => !Exec.outlives m.exec.calls.length 0 v
  let above := m.exec.control.take (m.exec.control.length - base)
  { m with
    exec := { m.exec.closed m.exec.calls.length 0 with
      control := m.exec.control.drop (m.exec.control.length - base)
      calls := m.exec.calls.tail }
    storage := (m.storage.releaseAll (gone.map (·.value))).releaseAll (above.map (·.value)) }

theorem takeResult_apply {m : Machine} {f : CallFrame} {fs : List CallFrame} (hm : m.exec.calls = f :: fs) :
    takeResult m.exec.calls.length m =
      .done (f.result.getD .nothing) { m with exec.calls := { f with result := none } :: fs } := by
  have hframe : m.exec.frame? m.exec.calls.length = some f := by simp [Exec.frame?, hm]
  have hmap : m.exec.mapFrame m.exec.calls.length (fun f => { f with result := none }) =
      { m.exec with calls := { f with result := none } :: fs } := by simp [Exec.mapFrame, hm]
  show Outcome.done ((m.exec.frame? m.exec.calls.length).bind (·.result) |>.getD .nothing)
    { m with exec := m.exec.mapFrame m.exec.calls.length fun f => { f with result := none } } = _
  rw [hframe, hmap]
  rfl

theorem endCall_apply {m : Machine} {f : CallFrame} {fs : List CallFrame} (hm : m.exec.calls = f :: fs)
    (base : Nat) :
    endCall m.exec.calls.length base m = .done (f.result.getD .nothing) (ended base m) := by
  let k : Machine := { ended base m with exec.calls := m.exec.calls }
  have hk : k.exec.calls = f :: fs := hm
  have hcut : endCall m.exec.calls.length base m =
      (takeResult m.exec.calls.length >>= fun v => popCall >>= fun _ => Pure.pure v) k := rfl
  rw [hcut, bind_apply, show takeResult m.exec.calls.length k = _ from takeResult_apply hk]
  simp only [k, ended, hm]
  rfl

theorem ended_restores {m₀ m : Machine} {args : List Value} (h : m₀.Underway args m) (hs : m₀.Scoped)
    (base : Nat) : m₀.Restores (ended base m) := by
  obtain ⟨f, hf, -⟩ := h.frame
  obtain ⟨kept, old, hb, hold, -, hlayers⟩ := h.closed_bindings hs 0
  have hkept : kept = [] := List.map_eq_nil_iff.mp
    (List.eq_nil_iff_forall_not_mem.mpr fun t ht => absurd (hlayers t ht) (Nat.not_lt_zero _))
  refine ⟨h.program, h.limits, h.operands, ?_, h.eval, ?_⟩
  · simp [ended, hf]
  · show Forall₂ Variable.Lasts m₀.exec.bindings (m.exec.closed m.exec.calls.length 0).bindings
    rwa [hb, hkept, List.nil_append]

theorem invokeWith_restoring {walk : ChainId → Nat → Work (Option Error)} (hw : Walking walk) :
    Restoring (invokeWith walk) := by
  intro c args m₀ hs
  simp only [invokeWith_eq, meets_bind, meets_read, meets_pushCall]
  split
  · refine (hw c m₀ args _ hs (Machine.Underway.begun m₀ args)).weaken fun r k hk => ?_
    obtain ⟨f, hf, -⟩ := hk.frame
    have hd : (m₀.exec.calls.length + 1) = k.exec.calls.length := hk.calls_length.symm
    have hr := ended_restores hk hs m₀.exec.control.length
    unfold Meets
    rw [List.length_cons, hd, endCall_apply hf]
    cases r with
    | none => exact hr
    | some e => exact ⟨hr.program, hr.limits, hr.operands, hr.calls, hr.eval, hr.bindings⟩
  · exact hs

/-- A turn of the walk and what comes after it. -/
theorem walking_turn {eval : Evaluator} {walk : ChainId → Nat → Cursor → Work (Option Error)} (he : Settling eval)
    (hw : ∀ cursor, Walking fun c depth => walk c depth cursor) (cursor : Cursor) :
    Walking fun c depth => bind (advance eval c depth cursor) fun
      | .next cursor => walk c depth cursor
      | .stop error => pure error := by
  intro c m₀ args m hs h
  refine goesOn_bind (goesOn_advance he hs h c cursor) fun turn k hk => ?_
  cases turn with
  | next cursor => exact hw cursor c m₀ args k hs hk
  | stop error => exact hk

/-- Evaluations, invocations and walks, for any fuel. -/
theorem keeps_scopes (n : Nat) :
    Settling (evaluate n) ∧ Restoring (invoke n) ∧ ∀ cursor, Walking fun c depth => walk n c depth cursor := by
  induction n with
  | zero =>
    refine ⟨?_, ?_, ?_⟩
    · intro b index mark bare prior m hc hs
      rw [evaluate]
      exact hs
    · intro c args m hs
      rw [invoke]
      exact hs
    · intro cursor c m₀ args m hs h
      show GoesOn m₀ args (walk 0 c _ cursor) m
      rw [walk]
      exact h.toScoped hs
  | succ n ih =>
    obtain ⟨he, hi, hw⟩ := ih
    refine ⟨?_, ?_, ?_⟩
    · rw [evaluate]
      exact evaluateWith_settling he hi
    · rw [invoke]
      exact invokeWith_restoring (hw {})
    · intro cursor c m₀ args m hs h
      show GoesOn m₀ args (walk (n + 1) c _ cursor) m
      rw [walk]
      exact walking_turn he hw cursor c m₀ args m hs h

/-- Evaluating a block leaves operands, frames and tags as they were, up to new bindings of the
    innermost open body and the result of the innermost invocation. -/
theorem evaluate_carries (n : Nat) (b : BlockId) (index : Int) (mark : Marker) (bare : Bool)
    (prior : Option Value) {m : Machine} (hc : m.exec.calls ≠ []) (hs : m.Scoped) :
    (evaluate n b index mark bare prior).Meets
      (fun _ k => m.Carries k ∧ k.exec.eval = m.exec.eval ∧ k.exec.operands = m.exec.operands)
      (.all Machine.Scoped) m := (keeps_scopes n).1 b index mark bare prior m hc hs

/-- An invocation that ends leaves operands, frames and tags as they were. -/
theorem invoke_restores_frames (n : Nat) (c : ChainId) (args : List Value) {m : Machine} (hs : m.Scoped) :
    (invoke n c args).Meets (fun _ k => m.Restores k) (.all Machine.Scoped) m :=
  (keeps_scopes n).2.1 c args m hs

/-! ## Runs -/

theorem meets_attempt {α : Type} {Q : Except Fault α → Machine → Prop} {E : Exits} {m : Machine} (w : Work α)
    (hw : w.Meets (fun a k => Q (.ok a) k)
      ⟨fun f k => Q (.error f) k, E.starved, E.paused⟩ m) : (attempt w).Meets Q E m := by
  unfold Meets attempt at *
  generalize w m = o at hw
  induction o with
  | paused m resume ih => exact ⟨hw.1, fun k hk => ih k (hw.2 k hk)⟩
  | _ => exact hw

theorem runMains_scoped {invoke : Invoker} (hi : Restoring invoke) (cs : List ChainId) (results : List Value)
    (m : Machine) (hs : m.Scoped) :
    (runMains invoke cs results).Meets (fun _ k => k.Scoped) (.all Machine.Scoped) m := by
  induction cs generalizing results m with
  | nil => exact hs
  | cons c cs ih =>
    simp only [runMains, meets_bind, meets_read]
    split
    · exact ih results m hs
    · rw [meets_bind]
      refine meets_attempt _ ((hi c [] m hs).mono (fun r k hk => ?_) (fun f k hk => hk) (fun k hk => hk)
        fun k hk => hk)
      have hk : k.Scoped := hk.toScoped hs
      cases r with
      | error e => exact hk
      | ok v => exact ih _ k hk

/-- Every machine that a run shows is scoped. -/
theorem worker_scoped {invoke : Invoker} (hi : Restoring invoke) (r : RegistryId) (cs : List ChainId)
    (cause : Option CancelCause) {m k : Machine} (h : (worker invoke r cs cause m).Shows k) : k.Scoped := by
  refine Outcome.Meets.of_shows (P := Machine.Scoped) ?_ h
  show Meets (worker invoke r cs cause) _ _ m
  simp only [worker, drain, meets_bind, meets_modify]
  refine runMains_scoped hi cs [] _ ?_
  rfl

end Work

open Work

def Machine.begun (r : RegistryId) (cs : List ChainId) (cause : Option CancelCause) (m : Machine) : Machine :=
  { m with
    exec := { m.exec.emptied with cancelled := cause }
    storage := m.storage.releaseAll m.exec.held
    program := m.program.link r cs }

theorem worker_apply (invoke : Invoker) (r : RegistryId) (cs : List ChainId) (cause : Option CancelCause) (m : Machine) :
    worker invoke r cs cause m = runMains invoke cs [] (m.begun r cs cause) := rfl

def afterMain (invoke : Invoker) (cs : List ChainId) (results : List Value) :
    Except Fault (Except Error Value) → Work Ending
  | .error f => return ⟨.fatal, some f.toError, results⟩
  | .ok (.error e) => return ⟨if e.isCancellation then .cancelled else .failed, some e, results⟩
  | .ok (.ok v) => runMains invoke cs (results ++ [v])

theorem runMains_cons {invoke : Invoker} {c : ChainId} {m : Machine} (hm : m.program.isMain c = true)
    (cs : List ChainId) (results : List Value) :
    runMains invoke (c :: cs) results m = (invoke c [] m).attempt.bind (afterMain invoke cs results) := by
  rw [runMains, bind_apply]
  show (if !m.program.isMain c then _ else _ : Work Ending) m = _
  rw [hm, if_neg (by decide), bind_apply]
  refine congrArg _ (funext fun r => ?_)
  rcases r with f | e | v <;> rfl

/-- A chain that is no entry chain of its own is passed over. -/
theorem runMains_pass {invoke : Invoker} {c : ChainId} {m : Machine} (hm : m.program.isMain c = false)
    (cs : List ChainId) (results : List Value) : runMains invoke (c :: cs) results m = runMains invoke cs results m := by
  rw [runMains, bind_apply]
  show (if !m.program.isMain c then _ else _ : Work Ending) m = _
  rw [hm, if_pos (by decide)]

end BlockEngine
