/-
  BlockEngine.Proofs.Library.Body — the walk through one body.

  The block at the head of a body yields a value as it is entered (`Gives`), with which the body is
  opened, suppressed or not. At the block that ends the body the walk closes it, and its head
  yields another value (`AtEnd`). Between the bodies of its group the walk stands as it stood
  before the group, but for what the blocks have done to the world and to outer variables
  (`Machine.Level`).

  Proved, of bodies that nest in tidy regions:
  - `atEnd_skipped`: a suppressed body is passed without a trace and then closed.
  - `ran_of_passage`: a body that was run is the innermost open one at its end; once it is closed
    its frame and its bindings are gone, and nothing else is.
-/

import BlockEngine.Proofs.Library.Walk
import BlockEngine.Proofs.Structured.Turn
import Mathlib.Data.List.TakeWhile

namespace BlockEngine

open List (Forall₂)

/-! ## Bodies -/

/-- A body, with the block at its head, which opens it, and the position of that. -/
structure Branch where
  head : BlockId
  position : Nat
  body : Forest

namespace Branch

def start (x : Branch) : Nat := x.position + 1

def stop (x : Branch) : Nat := x.start + x.body.size

def call (x : Branch) (mark : Marker) (operands : List Value) : NativeCall :=
  ⟨x.head, x.position, mark, .ofMarker mark :: operands⟩

structure Stands (p : Program) (c : ChainId) (x : Branch) : Prop where
  opener : (p.chain c)[x.position]? = some x.head
  opens : (p.kindOf x.head).type.opens = true
  body : StandAt (p.chain c) x.start x.body.blocks
  typed : x.body.Typed fun b => (p.kindOf b).type
  closer : ∃ b, (p.chain c)[x.stop]? = some b ∧ (p.kindOf b).type.closes = true

end Branch

namespace Machine

def noting (call : NativeCall) (m : Machine) : Machine := { m with journal := call :: m.journal }

def bodyClosed (m : Machine) : Machine := m.outOfBody m.exec.layer m.exec.control.tail

/-- The invocation goes on: the run was not cancelled, and no block has ended the invocation. -/
structure Going (m : Machine) : Prop where
  cancelled : m.exec.cancelled = none
  unfinished : m.exec.calls.head?.bind (·.result) = none

end Machine

/-! ## Between bodies -/

/-- A group that was begun on `m` has come to `k`, with none of its bodies open. -/
structure Machine.Level (m k : Machine) : Prop where
  carries : m.Carries k
  control : k.exec.control = m.exec.control
  operands : k.exec.operands = m.exec.operands
  eval : k.exec.eval = m.exec.eval
  going : k.Going

namespace Machine.Level

variable {m k l : Machine}

theorem refl (h : m.Going) : m.Level m := ⟨.refl m, rfl, rfl, rfl, h⟩

theorem trans (h : m.Level k) (h' : k.Level l) : m.Level l :=
  ⟨h.carries.trans h'.carries, h'.control.trans h.control, h'.operands.trans h.operands, h'.eval.trans h.eval,
    h'.going⟩

theorem noting (h : m.Level k) (call : NativeCall) : m.Level (k.noting call) :=
  ⟨h.carries.trans (.of_eq rfl rfl (.refl _) rfl), h.control, h.operands, h.eval,
    h.going.cancelled, h.going.unfinished⟩

end Machine.Level

namespace Work

open Filter (atTop)

variable {p : Program} {R : Region p} {c : ChainId} {m k : Machine} {x : Branch} {prior : Option Value}

/-! ## Entering and closing bodies -/

/-- A block is evaluated at a position, with any fuel that suffices. It yields a value, asks for no jump,
    and suppresses the body that is about to open or does not. -/
def Gives (b : BlockId) (i : Nat) (mark : Marker) (bare : Bool) (prior : Option Value) (m : Machine) (v : Value)
    (skip : Bool) (k : Machine) : Prop :=
  ∀ᶠ n in atTop, evaluate n b i mark bare prior m = .done (.ok (v, ⟨none, skip⟩)) k

section

variable {b : BlockId} {i depth n : Nat} {mark : Marker} {bare skip : Bool} {v w : Value}

theorem visit_apply {asked : Asked} (h : evaluate n b i mark bare prior m = .done (.ok (v, asked)) k)
    (hd : k.exec.calls.length = depth) (hk : k.Works p) (hgo : k.Going) :
    Structured.visit (evaluate n) depth b i mark bare prior m = .done (.ok (v, asked)) k := by
  rw [Structured.visit, bind_apply, h]
  show (isFinished depth >>= _) k = _
  rw [bind_apply, isFinished_apply hd hk.calls, hgo.unfinished]
  rfl

/-- A head that yields a value opens its body with it. -/
theorem enter_gives {bareNext : Bool} (hat : (p.chain c)[i]? = some b) (hopens : (p.kindOf b).type.opens = true)
    (hbare : (bareNext || prior.any (·.isOmitted)) = bare) (hg : Gives b i .opening bare prior m v skip k)
    (hd : k.exec.calls.length = depth) (hk : k.Works p) (hgo : k.Going)
    (hroom : k.exec.control.length < k.exec.limits.control) (t : BlockType) :
    ∀ᶠ n in atTop, enter (evaluate n) c depth { position := i, bareNext := bareNext } b t prior m =
      .done (.next { position := i + 1, suppressed := if skip then some (k.exec.layer + 1) else none })
        (k.inBody i v) := by
  refine hg.mono fun n hn => ?_
  obtain rfl := hk.program
  rw [enter_eq, bind_apply, visit_apply (by rw [hbare]; exact hn) hd hk hgo]
  show leave c depth { position := i } i (i + 1) v skip k = _
  rw [leave_open hat hopens, bind_apply, openBody_apply hd hk.calls, if_pos hroom]
  rfl

/-- A control block is entered. -/
theorem turns_enter {bareNext : Bool} {y : Cursor} {l : Machine} (hp : m.program = p) (hgo : m.Going)
    (hat : (p.chain c)[i]? = some b) (ht : (p.kindOf b).type = .control)
    (henter : ∀ᶠ n in atTop, enter (evaluate n) c depth { position := i, bareNext := bareNext } b .control none m =
      .done (.next y) l) :
    Turns c depth { position := i, bareNext := bareNext } m y l := by
  refine henter.mono fun n hn => ?_
  rw [advance_apply (by rw [hp]; exact hat), unlessCancelled_none hgo.cancelled, hp, ht, if_neg (by decide), bind_apply]
  exact hn

/-- At the cursor the walk is to close a body, and its head yields a value then. -/
structure AtEnd (c : ChainId) (depth : Nat) (cursor : Cursor) (m : Machine) (w : Value) (k : Machine) : Prop where
  cancelled : m.exec.cancelled = none
  program : m.program = k.program
  closes : ∀ t : BlockType, ∀ᶠ n in atTop, closeBody (evaluate n) c depth cursor t m =
    .done (if t == .terminator then .over (.next { position := cursor.position + 1 })
      else .onward { position := cursor.position } (some w)) k

theorem release_apply (hw : w.IsScalar) : release w m = .done () m := by
  show Outcome.done () { m with storage := m.storage.release w } = _
  rw [Storage.release_scalar hw]

section

variable {cursor : Cursor} {rest : List ControlFrame} {layer : Nat} (hm : m.Works p) (hd : m.exec.calls.length = depth)
  (hx : m.exec.cancelled = none) (hl : m.exec.layer = layer + 1) (hctl : m.exec.control = .body i v :: rest)
  (hat : (p.chain c)[i]? = some b) (hcursor : cursor.closedTo layer = { position := cursor.position })
  (hw : w.IsScalar) (hdk : k.exec.calls.length = depth) (hk : k.Works p) (hgo : k.Going)
include hm hd hctl hl hat hcursor hdk hk hgo

/-- Once its body is closed, the head is called for what to do next. -/
theorem closeBody_visited {asked : Asked}
    (h : evaluate n b i .closing true (some v) (m.outOfBody (layer + 1) rest) = .done (.ok (w, asked)) k)
    (t : BlockType) :
    closeBody (evaluate n) c depth cursor t m = (match asked.jump with
      | some j => do
        release w
        if (← blocksOf c).length < j then return .over (.stop (some (← badJump c i)))
        else return .over (.next { position := j, bareNext := w.isOmitted })
      | none =>
        if t == .terminator then do
          release w
          return .over (.next { position := cursor.position + 1 })
        else return .onward { position := cursor.position } (some w) : Work Closed) k := by
  rw [closeBody_apply hd hm.calls hl hctl, hcursor]
  show reenter (evaluate n) c depth { position := cursor.position } t i v (m.outOfBody (layer + 1) rest) = _
  rw [reenter_eq, bind_apply, blockAt_apply (m := m.outOfBody (layer + 1) rest) (hm.program ▸ hat)]
  show (Structured.visit (evaluate n) depth b i .closing true (some v) >>= _) _ = _
  rw [bind_apply, visit_apply h hdk hk hgo]
  rfl

include hx hw

theorem AtEnd.of_gives (hg : Gives b i .closing true (some v) (m.outOfBody (layer + 1) rest) w false k) :
    AtEnd c depth cursor m w k := by
  refine ⟨hx, hm.program.trans hk.program.symm, fun t => hg.mono fun n hn => ?_⟩
  rw [closeBody_visited hm hd hl hctl hat hcursor hdk hk hgo hn]
  show (if t == .terminator then _ else _ : Work Closed) k = _
  split
  · show (release w >>= _) k = _
    rw [bind_apply, release_apply hw]
    rfl
  · rfl

/-- A head that asks to go on at itself is entered again, whatever closes its body. -/
theorem turns_back {b' : BlockId} (hend : (p.chain c)[cursor.position]? = some b')
    (hcloses : (p.kindOf b').type.closes = true)
    (h : ∀ᶠ n in atTop, evaluate n b i .closing true (some v) (m.outOfBody (layer + 1) rest) =
      .done (.ok (w, ⟨some i, false⟩)) k) :
    Turns c depth cursor m { position := i, bareNext := w.isOmitted } k := by
  refine h.mono fun n hn => ?_
  have hinside : ¬ (k.program.chain c).length < i := by
    rw [hk.program]
    obtain ⟨hlt, -⟩ := List.getElem?_eq_some_iff.mp hat
    omega
  rw [advance_apply (by rw [hm.program]; exact hend), unlessCancelled_none hx, hm.program, if_pos hcloses, bind_apply,
    closeBody_visited hm hd hl hctl hat hcursor hdk hk hgo hn]
  show ((release w >>= _) k).bind _ = _
  rw [bind_apply, release_apply hw]
  show ((blocksOf c >>= _) k).bind _ = _
  rw [blocksOf, read_bind, if_neg hinside]
  rfl

end

/-- The terminator ends the group. -/
theorem AtEnd.stop {cursor : Cursor} (h : AtEnd c depth cursor m w k) (hk : k.program = p)
    (hat : (p.chain c)[cursor.position]? = some b) (ht : (p.kindOf b).type = .terminator) :
    Turns c depth cursor m { position := cursor.position + 1 } k := by
  have hp := h.program.trans hk
  refine (h.closes .terminator).mono fun n hn => ?_
  rw [advance_apply (by rw [hp]; exact hat), unlessCancelled_none h.cancelled, hp, ht, if_pos (by decide), bind_apply,
    hn]
  rfl

/-- A continuation is entered, after what the branch before it yielded. -/
theorem AtEnd.more {cursor y : Cursor} {l : Machine} (h : AtEnd c depth cursor m w k) (hk : k.program = p)
    (hat : (p.chain c)[cursor.position]? = some b) (ht : (p.kindOf b).type = .continuation)
    (henter : ∀ᶠ n in atTop,
      enter (evaluate n) c depth { position := cursor.position } b .continuation (some w) k = .done (.next y) l) :
    Turns c depth cursor m y l := by
  have hp := h.program.trans hk
  refine ((h.closes .continuation).and henter).mono fun n hn => ?_
  rw [advance_apply (by rw [hp]; exact hat), unlessCancelled_none h.cancelled, hp, ht, if_pos (by decide), bind_apply,
    hn.1]
  exact hn.2

end

/-! ## Skipped bodies -/

section

variable {depth : Nat} {v w : Value} {l : Machine}

/-- The walk passes a suppressed body, and then closes it. -/
theorem atEnd_skipped (hm : k.Works p) (hgo : k.Going) (hd : k.exec.calls.length = depth)
    (hstands : StandAt (p.chain c) x.start x.body.blocks) (htyped : x.body.Typed fun b => (p.kindOf b).type)
    (hat : (p.chain c)[x.position]? = some x.head)
    (hroom : k.exec.control.length + (x.body.depth + 1) ≤ k.exec.limits.control)
    (hg : Gives x.head x.position .closing true (some v) k w false l) (hw : w.IsScalar) (hl : k.Level l) :
    Passage (Turns c depth) x.start x.stop (passing (k.exec.layer + 1) x.start) (k.inBody x.position v)
        (passing (k.exec.layer + 1) x.stop) (k.inBody x.position v) ∧
      AtEnd c depth (passing (k.exec.layer + 1) x.stop) (k.inBody x.position v) w l := by
  obtain ⟨m₀, args, hs, hp, hu⟩ := hm.underway
  obtain rfl := hp
  have hopened := hu.opened x.position v
  have hlayer := hu.layer_inBody x.position v
  have hdepth := hu.calls_length.symm.trans hd
  refine ⟨?_, ?_⟩
  · have hskips := skips_forest (c := c) (P := fun m => m.exec.control.length < m.exec.limits.control) hs x.body hstands
      htyped hopened (Nat.le_of_eq hlayer.symm) hgo.cancelled fun m' hm' hlt => by
        rw [hm'.limits, ← hu.limits]
        have hpushed : (k.inBody x.position v).exec.control.length = k.exec.control.length + 1 := rfl
        omega
    rw [hdepth] at hskips
    exact hskips.mono fun h => h.turns fun _ hm' => hm'
  · refine .of_gives (hopened.works hs rfl) (hopened.calls_length.trans hdepth) hgo.cancelled hlayer rfl hat
      ?_ hw (hl.carries.frames.length_eq.trans hd) (hm.carries hl.carries) hl.going ?_
    · simp [Cursor.closedTo, passing]
    · rwa [hu.outOfBody_inBody hs]

end

/-! ## Bodies that are run -/

section

variable {S : Stretch} {m₀ : Machine} {args : List Value} {lo depth : Nat} {y z : Cursor}

/-- The walk keeps to what it found where it came to the stretch. -/
theorem passage_stands (ht : R.Tidy) (hc : R.chains c) (hs : m₀.Scoped) (hp : m₀.program = p) (hS : S.Fits False m₀)
    (h : Passage (Turns c (m₀.exec.calls.length + 1)) lo S.stop y m z k)
    (hm : Within False m₀ args (Standing p False c S y) m) : Within False m₀ args (Standing p False c S z) k := by
  induction h with
  | here => exact hm
  | step _ hlt hturn _ ih =>
    obtain ⟨n, hn⟩ := hturn.exists
    have hnext := advance_stands (keeps_control (R := R) False False (.inr ht) n).1 (keeps_scopes n).1 hs hp
      (R.listed hc) hS (fun _ => hlt) hm
    unfold Meets at hnext
    rw [hn] at hnext
    exact ih hnext

/-- What closes the body is all that closes anything, seen from where it begins. -/
theorem closes_body (htyped : x.body.Typed fun b => (p.kindOf b).type)
    (hstands : StandAt (p.chain c) x.start x.body.blocks) {control : List ControlFrame} {bindings : List Variable}
    {layer : Nat} :
    p.Closes c ⟨x.stop, layer, control, bindings⟩ layer x.start := by
  refine ⟨Nat.le_refl _, ?_⟩
  have hblocks : ((p.chain c).take x.stop).drop x.start = x.body.blocks := by
    obtain ⟨rest, hrest⟩ := hstands
    rw [List.drop_take, ← hrest, Branch.stop, Nat.add_sub_cancel_left]
    exact List.take_left
  show Balance.scan (layer - layer) x.start (((p.outline c).take x.stop).drop x.start) = none
  rw [Nat.sub_self, Program.outline, ← List.map_take, ← List.map_drop, hblocks, scan_eq_none_iff]
  simpa [openers, parse] using x.body.openers htyped []

/-- A body that was run has come to its end: it is the innermost open one there, and once it is closed
    nothing is left of it. -/
structure Ran (c : ChainId) (depth : Nat) (x : Branch) (v : Value) (m : Machine) (y : Cursor) (k : Machine) : Prop where
  works : k.Works m.program
  depth : k.exec.calls.length = depth
  cursor : y = { position := x.stop }
  layer : k.exec.layer = m.exec.layer + 1
  control : k.exec.control = .body x.position v :: m.exec.control
  closed : m.Level k.bodyClosed
  bindings : Forall₂ Variable.Lasts m.exec.bindings k.bodyClosed.exec.bindings

theorem Ran.tags {depth : Nat} {v : Value} (h : Ran c depth x v m y k) : k.bodyClosed.exec.tags = m.exec.tags :=
  Variable.Lasts.map_tag h.bindings

theorem Ran.bodyClosed_eq {depth : Nat} {v : Value} (h : Ran c depth x v m y k) :
    k.bodyClosed = k.outOfBody (m.exec.layer + 1) m.exec.control := by
  rw [Machine.bodyClosed, h.layer, h.control]
  rfl

/-- The bindings made in a body go when it is closed, and no others. -/
theorem bindings_closed (hs : m₀.Scoped) (hm : m₀.Underway args m) (hk : m₀.Underway args k) {new old : List Variable}
    (hb : k.exec.bindings = new ++ old) (hold : Forall₂ Variable.Lasts m.exec.bindings old)
    (hnew : ∀ x ∈ new, m.exec.layer < x.layer) :
    (k.exec.bindings.dropWhile fun x => !Exec.outlives (m₀.exec.calls.length + 1) (m.exec.layer + 1) x) = old := by
  obtain ⟨own, hown, -⟩ := hm.tags
  obtain ⟨own', hown', hinner⟩ := hk.tags
  have htags : k.exec.tags = new.map Variable.tag ++ m.exec.tags := by
    rw [Exec.tags, hb, List.map_append, Variable.Lasts.map_tag hold]
    rfl
  have hsplit : own' = new.map Variable.tag ++ own :=
    List.append_cancel_right (by rw [← hown', htags, hown, List.append_assoc])
  have hgone : ∀ x ∈ new, (!Exec.outlives (m₀.exec.calls.length + 1) (m.exec.layer + 1) x) = true := fun x hx => by
    have hdepth : x.depth = _ := (hinner.within x.tag (hsplit ▸ List.mem_append_left _ (List.mem_map_of_mem hx))).1
    have hlt := hnew x hx
    simp [Exec.outlives, hdepth, Nat.not_lt.mpr hlt]
  have hstay := Variable.Lasts.all_outlive hold fun x hx => hm.outlives hs hx
  rw [hm.calls_length] at hstay
  rw [hb, dropWhile_append_false fun x hx => by rw [hstay x hx, Bool.not_true], List.dropWhile_eq_nil_iff.mpr hgone,
    List.nil_append]

theorem ran_of_passage (ht : R.Tidy) (hc : R.chains c) {depth : Nat} {v : Value} (hm : m.Works p)
    (hd : m.exec.calls.length = depth) (hx : x.Stands p c)
    (h : Passage (Turns c depth) x.start x.stop { position := x.start } (m.inBody x.position v) y k)
    (hy : y.position = x.stop) (hgo : k.Going) : Ran c depth x v m y k := by
  obtain ⟨b, hat, hb⟩ := hx.closer
  obtain ⟨m₀, args, hs, hp, hu⟩ := hm.underway
  obtain rfl := hu.calls_length.symm.trans hd
  have hopened := hu.opened x.position v
  have hlayer := hu.layer_inBody x.position v
  let S : Stretch := ⟨x.stop, m.exec.layer + 1, .body x.position v :: m.exec.control, m.exec.bindings⟩
  have hfits : S.Fits False m₀ := ⟨False.elim, fun z hz => by
    have hout := hopened.outlives hs (v := z) hz
    rwa [hopened.calls_length, hlayer] at hout⟩
  have hbegun : Within False m₀ args (Standing p False c S { position := x.start }) (m.inBody x.position v) := by
    refine ⟨hopened, nofun,
      ⟨[], ⟨⟨[], rfl, ?_⟩, ⟨[], _, rfl, Variable.Lasts.all_refl _, nofun⟩, fun _ hs => nomatch hs⟩, rfl⟩, nofun,
      fun _ => ?_⟩
    · rw [hlayer]
      exact .none
    · rw [hlayer]
      exact closes_body hx.typed hx.body
  have hend := passage_stands ht hc hs hp hfits h hbegun
  obtain ⟨hcursor, hinner, hcontrol, new, old, hbindings, hold, hnew⟩ := hend.holds.arrived (fun h => h) hy hat
    fun hcontrol => by rw [hcontrol] at hb; cases hb
  have hinner : k.exec.layer = m.exec.layer + 1 := hinner
  have hk := hend.underway
  have hout := hk.closed hs k.exec.control.tail
  have hclosed : k.bodyClosed.exec.layer = m.exec.layer := by
    rw [Machine.bodyClosed, hk.layer_outOfBody, hinner]
    rfl
  have hleft : Forall₂ Variable.Lasts m.exec.bindings k.bodyClosed.exec.bindings := by
    have hdropped : k.bodyClosed.exec.bindings =
        k.exec.bindings.dropWhile fun x => !Exec.outlives (m₀.exec.calls.length + 1) (m.exec.layer + 1) x := by
      rw [← hk.calls_length, ← hinner]
      rfl
    rw [hdropped, bindings_closed hs hu hk hbindings hold hnew]
    exact hold
  refine ⟨hm.program.trans hp.symm ▸ hk.works hs rfl, hk.calls_length, hcursor, hinner, hcontrol, ?_, hleft⟩
  refine ⟨⟨hout.program.trans hu.program.symm, hout.limits.trans hu.limits.symm, hu.sameFrames hout hclosed, [], _,
    rfl, hleft, nofun⟩, ?_, hout.operands.trans hu.operands.symm, hout.eval.trans hu.eval.symm,
    hgo.cancelled, ?_⟩
  · show k.exec.control.tail = _
    rw [hcontrol]
    rfl
  · obtain ⟨f, hf, -⟩ := hk.frame
    have hgone := hgo.unfinished
    simpa [Machine.bodyClosed, Machine.outOfBody, Exec.withLayer, Exec.closed, hf] using hgone

end

end Work

end BlockEngine
