/-
  BlockEngine.Proofs.Structured.Simulation — the walk does what the bracket tree says.

  The structured run of a forest, with what comes after it, follows the walk from the forest's first
  block, provided that what comes after follows the walk from the block after its last
  (`forest_tends`); so it does for what closes a body (`tail_tends`). Between blocks of a level the
  two run on one machine. From there, by induction on fuel, blocks evaluate and chains are invoked
  alike (`simulates`), whichever of the two is allowed to starve.
-/

import BlockEngine.Proofs.Structured.Turn

namespace BlockEngine.Work

open Structured

/-- What is left of an invocation after a run of blocks, if it goes on. -/
def onward (w : Work (Option Error)) : Flow → Work (Option Error)
  | .on => w
  | .stop e => return e

/-- What is left of an invocation at the block that closed a body, whose opener closed with `v`. -/
def closing (c : ChainId) (depth n j : Nat) (b : BlockId) (t : BlockType) (v : Value) : Work (Option Error) :=
  if t == .terminator then release v >>= fun _ => walk n c depth { position := j + 1 }
  else enter (evaluate n) c depth { position := j } b t (some v) >>= goOn c depth n

/-- A block that opens a body, the body, and the block that closes it, in their places. -/
structure Bracketed (p : Program) (c : ChainId) (i : Nat) (b : BlockId) (body : Forest) (b' : BlockId) : Prop where
  opener : (p.chain c)[i]? = some b
  opens : (p.kindOf b).type.opens = true
  stands : StandAt (p.chain c) (i + 1) body.blocks
  typed : body.Typed fun b => (p.kindOf b).type
  closer : (p.chain c)[i + 1 + body.size]? = some b'
  closes : (p.kindOf b').type.closes = true

/-- The structured run of a forest at a position, with what comes after it, follows the walk. -/
def RunsAlike {l : Link} (h : Horizon l) (n : Nat) (m₀ : Machine) (args : List Value) (c : ChainId) (eval' : Evaluator)
    (breach : Fault) (i : Nat) (f : Forest) : Prop :=
  ∀ m w', m₀.Underway args m →
    (∀ k, m₀.Underway args k → k.exec.layer = m.exec.layer → k.exec.control = m.exec.control →
      Tends l (h.reach n) (fun x => walk x c (m₀.exec.calls.length + 1) { position := i + f.size }) w' k) →
    Tends l (h.reach n) (fun x => walk x c (m₀.exec.calls.length + 1) { position := i })
      (runForest eval' breach (m₀.exec.calls.length + 1) n i f >>= onward w') m

variable {l : Link} {α β : Type} {F : Filter Nat} {m : Machine}

theorem tends_pure (hm : l.Fits m) (a : α) : Tends l F (fun _ => Pure.pure a) (Pure.pure a) m :=
  .of_forall fun _ => blind_pure a m hm

theorem tends_read {w : Nat → Work β} {g : Machine → α} {f : α → Work β} (hg : g (l.second m) = g m)
    (h : Tends l F w (f (g m)) m) : Tends l F w (read g >>= f) m :=
  h.of_apply (fun _ => rfl) (by rw [read_bind, hg])

/-- Both runs come to another machine. -/
theorem Tends.of_step {w v : Nat → Work α} {w' v' : Work α} {k : Machine} (h : Tends l F v v' k)
    (hw : ∀ n, w n m = v n k) (hw' : w' (l.second m) = v' (l.second k)) : Tends l F w w' m := by
  unfold Tends Follows at h ⊢
  simpa only [hw, hw'] using h

section

variable (hp : l.past = {}) {m₀ : Machine} (hs : m₀.Scoped) {args : List Value} {eval' : Evaluator}
include hp hs

theorem apt_of_underway (hm : m₀.Underway args m) : Apt l m := ⟨hm.calls_ne, hm.toScoped hs, Link.fits_of_past hp m⟩

theorem visit_tends (he : AlikeEval l F (Apt l) evaluate eval') (hm : m₀.Underway args m) (b : BlockId) (i : Nat)
    (mark : Marker) (bare : Bool) (prior : Option Value) :
    Tends l F (fun n => visit (evaluate n) (m₀.exec.calls.length + 1) b i mark bare prior)
      (visit eval' (m₀.exec.calls.length + 1) b i mark bare prior) m := by
  refine alike_bind_blind (he b i mark bare prior) (fun r => ?_) m (apt_of_underway hp hs hm)
  cases r with
  | error e => exact blind_pure _
  | ok va =>
    refine blind_bind (blind_read fun _ => rfl) fun finished => ?_
    cases finished with
    | false => exact blind_pure _
    | true => exact blind_bind (blind_release _) fun _ => blind_pure _

omit hp in
/-- Entering a block stays in the invocation and in its open bodies. -/
theorem visit_keeps (hm : m₀.Underway args m) {n : Nat} {b : BlockId} {i : Nat} {mark : Marker} {bare : Bool}
    {prior : Option Value} {r : Except (Option Error) (Value × Asked)} {k : Machine}
    (hy : Yields l (visit (evaluate n) (m₀.exec.calls.length + 1) b i mark bare prior) m r k) :
    m₀.Underway args k ∧ k.exec.layer = m.exec.layer := by
  refine Meets.of_yields (Q := fun _ k => m₀.Underway args k ∧ k.exec.layer = m.exec.layer)
    (E := .all Machine.Scoped) ?_ hy
  unfold visit
  rw [meets_bind]
  refine (evaluate_carries n b i mark bare prior hm.calls_ne (hm.toScoped hs)).weaken fun r k hk => ?_
  have hk : m₀.Underway args k ∧ k.exec.layer = m.exec.layer := ⟨hm.carries hk.1 hk.2.1 hk.2.2, hk.1.layer_eq⟩
  cases r with
  | error e => exact hk
  | ok va =>
    show Outcome.Meets _ _ ((isFinished _ >>= _) k)
    rw [bind_apply, isFinished_apply hk.1.calls_length hk.1.calls_ne]
    generalize (k.exec.calls.head?.bind (·.result)).isSome = finished
    cases finished with
    | false => exact hk
    | true => exact ⟨hk.1.of_eq rfl rfl, hk.2⟩

end

/-! ## A plain block -/

section

variable (hp : l.past = {}) {m₀ : Machine} (hs : m₀.Scoped) {args : List Value} {eval' : Evaluator}
  {breach : Fault} (hb : l.grants breach) {c : ChainId}
include hp hs hb

theorem single_tends (he : AlikeEval l F (Apt l) evaluate eval') (hm : m₀.Underway args m) {b : BlockId} {i : Nat}
    (hat : (m₀.program.chain c)[i]? = some b)
    (ht : (m₀.program.kindOf b).type.opens = false ∧ (m₀.program.kindOf b).type.closes = false)
    {w' : Work (Option Error)}
    (hw : ∀ k, m₀.Underway args k → k.exec.layer = m.exec.layer → k.exec.control = m.exec.control →
      Tends l F (fun n => walk n c (m₀.exec.calls.length + 1) { position := i + 1 }) w' k) :
    Tends l F
      (fun n => advance (evaluate n) c (m₀.exec.calls.length + 1) { position := i } >>=
        goOn c (m₀.exec.calls.length + 1) n)
      (single eval' breach (m₀.exec.calls.length + 1) b i >>= onward w') m := by
  have hat' : ∀ {k : Machine}, m₀.Underway args k → (k.program.chain c)[i]? = some b := fun hk => hk.program ▸ hat
  refine Tends.of_apply (v := fun n =>
    unlessCancelled .stop (enter (evaluate n) c (m₀.exec.calls.length + 1) { position := i } b
      (m.program.kindOf b).type none) >>= goOn c (m₀.exec.calls.length + 1) n) ?_ (fun n => ?_) rfl
  · refine tends_unlessCancelled (fun e => tends_pure (Link.fits_of_past hp _) e) fun _ => ?_
    simp only [enter_eq, bind_assoc]
    refine tends_read rfl ?_
    refine tends_bind (visit_tends hp hs he hm b i .opening false none) fun r k _ hy hfit => ?_
    obtain ⟨hk, hl⟩ := visit_keeps hs hm hy
    rcases r with e | ⟨v, jump, skip⟩
    · exact tends_pure hfit e
    · dsimp only
      simp only [bind_assoc]
      refine tends_read rfl (tends_watch hb fun hok => ?_)
      obtain ⟨hj, hctl⟩ : jump = none ∧ k.exec.control = m.exec.control := by simpa using hok
      subst hj
      dsimp only
      refine Tends.of_apply (v := fun n => release v >>= fun _ =>
        walk n c (m₀.exec.calls.length + 1) { position := i + 1 }) ?_ (fun n => ?_) rfl
      · refine tends_bind (.of_forall fun _ => blind_release v k hfit) fun _ k' _ hy _ => ?_
        cases hy
        exact hw _ (hk.of_eq rfl rfl) hl hctl
      · rw [bind_apply, leave_leaf (hat' hk) (by rw [hk.program]; exact ht.1)]
        rfl
  · rw [bind_apply, bind_apply, advance_apply (hat' hm), hm.program, if_neg (by simp [ht.2])]
    rfl

/-! ## A branch -/

/-- The opener is entered again. -/
theorem conclude_tends (he : AlikeEval l F (Apt l) evaluate eval') (hm : m₀.Underway args m) {own : Bool}
    {outside : List ControlFrame} {b b' : BlockId} {i j : Nat} {v : Value} {t : BlockType}
    (hat : (m₀.program.chain c)[i]? = some b) {cont : Pass → Work (Option Error)}
    (hstop : ∀ e, cont (.stop e) = Pure.pure e)
    (hthrough : ∀ v k, m₀.Underway args k → k.exec.layer = m.exec.layer → k.exec.control = outside →
      Tends l F (fun x => closing c (m₀.exec.calls.length + 1) x j b' t v) (cont (.through v)) k)
    (hagain : own = true → ∀ bare k, m₀.Underway args k → k.exec.layer = m.exec.layer →
      keepsAtMostOne outside k.exec.control = true →
      Tends l F (fun x => walk x c (m₀.exec.calls.length + 1) { position := i, bareNext := bare })
        (cont (.again bare)) k) :
    Tends l F
      (fun x => reenter (evaluate x) c (m₀.exec.calls.length + 1) { position := j } t i v >>= fun r =>
        takeUp (evaluate x) c (m₀.exec.calls.length + 1) b' t r >>= goOn c (m₀.exec.calls.length + 1) x)
      (conclude eval' breach (m₀.exec.calls.length + 1) own outside b i v >>= cont) m := by
  have hblock : blockAt c i m = .done b m := blockAt_apply (by rw [hm.program]; exact hat)
  have hsize : i < (m₀.program.chain c).length := (List.getElem?_eq_some_iff.mp hat).1
  simp only [reenter_eq, bind_assoc]
  refine Tends.of_apply (v := fun x =>
    visit (evaluate x) (m₀.exec.calls.length + 1) b i .closing true (some v) >>= fun r => _)
    ?_ (fun x => by rw [bind_apply, hblock]; rfl) rfl
  unfold conclude
  rw [bind_assoc]
  refine tends_bind (visit_tends hp hs he hm b i .closing true (some v)) fun r k _ hy hfit => ?_
  obtain ⟨hk, hl⟩ := visit_keeps hs hm hy
  rcases r with e | ⟨v, jump, skip⟩
  · show Tends l F _ (cont (.stop e)) k
    rw [hstop]
    exact tends_pure hfit e
  · dsimp only
    rw [bind_assoc]
    refine tends_read rfl ?_
    cases jump with
    | none =>
      dsimp only
      rw [bind_assoc]
      refine tends_watch hb fun hok => ?_
      refine (hthrough v k hk hl (by simpa using hok)).of_apply (fun x => ?_) rfl
      unfold closing
      split <;> rfl
    | some j' =>
      dsimp only
      rw [bind_assoc]
      refine tends_watch hb fun hok => ?_
      obtain ⟨⟨hown, hj⟩, hkeep⟩ : (own = true ∧ j' = i) ∧ keepsAtMostOne outside k.exec.control = true := by
        simpa using hok
      subst hj
      rw [bind_assoc]
      simp only [bind_assoc]
      refine tends_bind (.of_forall fun _ => blind_release v k hfit) fun _ k' _ hy _ => ?_
      cases hy
      refine (hagain hown v.isOmitted { k with storage := k.storage.release v } (hk.of_eq rfl rfl) hl
        hkeep).of_apply (fun x => ?_) rfl
      have hin : ¬ (k.program.chain c).length < j' := by
        rw [hk.program]
        exact Nat.not_lt.mpr (Nat.le_of_lt hsize)
      rw [blocksOf, read_bind, if_neg hin]
      rfl

/-- The block that closes a body. -/
theorem closer_tends (h : Horizon l) {n : Nat} (he : AlikeEval l (h.reach n) (Apt l) evaluate eval')
    (hm : m₀.Underway args m) {own : Bool} {outside inside : List ControlFrame} {b b' : BlockId} {i j layer : Nat}
    {v : Value} {cursor : Cursor} (hat : (m₀.program.chain c)[i]? = some b)
    (hat' : (m₀.program.chain c)[cursor.position]? = some b') (hcl : (m₀.program.kindOf b').type.closes = true)
    (hcur : cursor.closedTo layer = { position := j })
    (hctl : m.exec.control = .body i v :: inside) (hl : m.exec.layer = layer + 1)
    {cont : Pass → Work (Option Error)} (hstop : ∀ e, cont (.stop e) = Pure.pure e)
    (hthrough : ∀ v k, m₀.Underway args k → k.exec.layer = layer → k.exec.control = outside →
      Tends l (h.reach n) (fun x => closing c (m₀.exec.calls.length + 1) x j b' (m₀.program.kindOf b').type v)
        (cont (.through v)) k)
    (hagain : own = true → ∀ bare k, m₀.Underway args k → k.exec.layer = layer →
      keepsAtMostOne outside k.exec.control = true →
      Tends l (h.reach n) (fun x => walk x c (m₀.exec.calls.length + 1) { position := i, bareNext := bare })
        (cont (.again bare)) k) :
    Tends l (h.reach n) (fun x => walk x c (m₀.exec.calls.length + 1) cursor)
      (unlessCancelled .stop (takeBody (m₀.exec.calls.length + 1) (layer + 1) >>= fun _ =>
        conclude eval' breach (m₀.exec.calls.length + 1) own outside b i v) >>= cont) m := by
  refine Tends.weaken (tends_turn ?_) (h.shrinks n)
  have hb' : (m.program.chain c)[cursor.position]? = some b' := hm.program ▸ hat'
  generalize ht' : (m₀.program.kindOf b').type = t' at *
  have hkind : (m.program.kindOf b').type = t' := by rw [hm.program, ht']
  refine Tends.of_apply (v := fun x =>
    unlessCancelled .stop (closeBody (evaluate x) c (m₀.exec.calls.length + 1) cursor t' >>=
      takeUp (evaluate x) c (m₀.exec.calls.length + 1) b' t') >>= goOn c (m₀.exec.calls.length + 1) x)
    ?_ (fun x => ?_) rfl
  · refine tends_unlessCancelled (fun e => ?_) fun _ => ?_
    · rw [hstop]
      exact tends_pure (Link.fits_of_past hp _) e
    -- Both runs take the frame off and are at the opener again.
    have hm' : m₀.Underway args (m.outOfBody (layer + 1) inside) := hl ▸ hm.closed hs inside
    have hl' : (m.outOfBody (layer + 1) inside).exec.layer = layer := hm.layer_outOfBody _ _
    have htends := conclude_tends hp hs hb he hm' (j := j) (t := t') (v := v) hat hstop
      (fun v k hk hl => hthrough v k hk (hl.trans hl')) fun ho bare k hk hl => hagain ho bare k hk (hl.trans hl')
    refine htends.of_step (fun x => ?_) ?_
    · rw [bind_assoc, bind_apply, bind_apply, closeBody_apply hm.calls_length hm.calls_ne hl hctl, hcur]
      rfl
    · rw [bind_assoc, bind_apply, takeBody_apply (m := l.second m) hm.calls_length hm.calls_ne hctl]
      rfl
  · rw [bind_apply, bind_apply, advance_apply hb', hkind, if_pos hcl]

omit hp hs hb in
theorem openBody_yields (hm : m₀.Underway args m) {i layer : Nat} {v : Value} {k : Machine}
    (hy : Yields l (openBody (m₀.exec.calls.length + 1) i v) m layer k) :
    layer = m.exec.layer + 1 ∧ k = m.inBody i v := by
  unfold Yields at hy
  rw [openBody_apply hm.calls_length hm.calls_ne] at hy
  split at hy
  · cases hy
    exact ⟨rfl, rfl⟩
  · cases hy

omit hb in
/-- A suppressed body is passed over, unless the run was cancelled. -/
theorem skipped_tends (h : Horizon l) (hex : ∀ k, l.excuses (stackFault .control .push k)) {n : Nat}
    (hm : m₀.Underway args m) {i s : Nat} {body : Forest} (hstand : StandAt (m₀.program.chain c) i body.blocks)
    (htyped : body.Typed fun b => (m₀.program.kindOf b).type) (hend : i + body.size < (m₀.program.chain c).length)
    (hs' : s ≤ m.exec.layer) {w : Work Pass} {cont : Pass → Work (Option Error)}
    (hstop : ∀ e, cont (.stop e) = Pure.pure e)
    (hw : Tends l (h.reach n) (fun x => walk x c (m₀.exec.calls.length + 1) (passing s (i + body.size)))
      (unlessCancelled .stop w >>= cont) m) :
    Tends l (h.reach n) (fun x => walk x c (m₀.exec.calls.length + 1) (passing s i))
      (unlessCancelled .stop w >>= cont) m := by
  cases hx : m.exec.cancelled with
  | none => exact leads_of_skips hex (skips_forest hs body hstand htyped hm hs' hx (P := fun _ => True)
      fun _ _ _ => trivial) _ hw
  | some cause =>
    have hnext : ∃ b, (m.program.chain c)[i]? = some b := by
      rw [hm.program]
      exact ⟨_, List.getElem?_eq_getElem (by omega)⟩
    obtain ⟨b, hb⟩ := hnext
    refine Tends.weaken (tends_turn (n := n) ?_) (h.shrinks n)
    refine (tends_pure (Link.fits_of_past hp _) (some (.cancelled cause))).of_apply (fun x => ?_) ?_
    · rw [bind_apply, advance_cancelled hb hx]
      rfl
    · rw [unlessCancelled_bind]
      have hx' : (l.second m).exec.cancelled = some cause := hx
      rw [hx']
      exact congrFun (hstop _) _

/-- A body that was just opened, and the block that closes it. -/
theorem opened_tends (h : Horizon l) (hex : ∀ k, l.excuses (stackFault .control .push k)) {n : Nat}
    (he : AlikeEval l (h.reach n) (Apt l) evaluate eval') {own : Bool} {outside : List ControlFrame} {b b' : BlockId} {i : Nat}
    {body : Forest} (hbr : Bracketed m₀.program c i b body b')
    (hbody : RunsAlike h n m₀ args c eval' breach (i + 1) body) {cont : Pass → Work (Option Error)}
    (hstop : ∀ e, cont (.stop e) = Pure.pure e) (hm : m₀.Underway args m)
    (hthrough : ∀ v k, m₀.Underway args k → k.exec.layer = m.exec.layer → k.exec.control = outside →
      Tends l (h.reach n) (fun x => closing c (m₀.exec.calls.length + 1) x (i + 1 + body.size) b'
        (m₀.program.kindOf b').type v) (cont (.through v)) k)
    (hagain : own = true → ∀ bare k, m₀.Underway args k → k.exec.layer = m.exec.layer →
      keepsAtMostOne outside k.exec.control = true →
      Tends l (h.reach n) (fun x => walk x c (m₀.exec.calls.length + 1) { position := i, bareNext := bare })
        (cont (.again bare)) k) (v : Value) (skip : Bool) :
    Tends l (h.reach n)
      (fun x => walk x c (m₀.exec.calls.length + 1)
        { position := i + 1, suppressed := if skip then some (m.exec.layer + 1) else none })
      ((if skip then return .on else runForest eval' breach (m₀.exec.calls.length + 1) n (i + 1) body) >>= fun
        | .stop e => cont (.stop e)
        | .on => unlessCancelled .stop (takeBody (m₀.exec.calls.length + 1) (m.exec.layer + 1) >>= fun _ =>
            conclude eval' breach (m₀.exec.calls.length + 1) own outside b i v) >>= cont)
      (m.inBody i v) := by
  have hk := hm.opened i v
  have hl := hm.layer_inBody i v
  -- The block that closes the body, wherever the walk comes to it from.
  have hclose : ∀ {cursor : Cursor} {k : Machine}, cursor.position = i + 1 + body.size →
      cursor.closedTo m.exec.layer = { position := i + 1 + body.size } → m₀.Underway args k →
      k.exec.layer = m.exec.layer + 1 → k.exec.control = .body i v :: m.exec.control →
      Tends l (h.reach n) (fun x => walk x c (m₀.exec.calls.length + 1) cursor)
        (unlessCancelled .stop (takeBody (m₀.exec.calls.length + 1) (m.exec.layer + 1) >>= fun _ =>
          conclude eval' breach (m₀.exec.calls.length + 1) own outside b i v) >>= cont) k :=
    fun hpos hcur hk hl hctl => closer_tends hp hs hb h he hk hbr.opener (hpos ▸ hbr.closer) hbr.closes hcur hctl hl
      hstop hthrough hagain
  cases skip with
  | false =>
    refine Tends.of_apply (u := runForest eval' breach (m₀.exec.calls.length + 1) n (i + 1) body >>= onward _)
      (hbody _ _ hk fun k₂ hk₂ hl₂ hctl₂ => hclose rfl rfl hk₂ (hl₂.trans hl) hctl₂) (fun _ => rfl) ?_
    refine congrFun (bind_congr fun flow => ?_) _
    cases flow with
    | on => rfl
    | stop e => exact hstop e
  | true =>
    show Tends l (h.reach n) (fun x => walk x c _ (passing (m.exec.layer + 1) (i + 1)))
      (unlessCancelled .stop _ >>= cont) _
    have hcur : (passing (m.exec.layer + 1) (i + 1 + body.size)).closedTo m.exec.layer =
        { position := i + 1 + body.size } := by simp [Cursor.closedTo, passing]
    exact skipped_tends hp hs h hex hk hbr.stands hbr.typed (List.getElem?_eq_some_iff.mp hbr.closer).1
      (hl ▸ Nat.le_refl _) hstop (hclose rfl hcur hk hl rfl)

/-- A block that opens a body, its body, and the block that closes it. -/
theorem branch_tends (h : Horizon l) (hex : ∀ k, l.excuses (stackFault .control .push k)) {n : Nat}
    (he : AlikeEval l (h.reach n) (Apt l) evaluate eval') {own : Bool} {outside : List ControlFrame} {b b' : BlockId} {i : Nat}
    {body : Forest} (hbr : Bracketed m₀.program c i b body b')
    (hbody : RunsAlike h n m₀ args c eval' breach (i + 1) body) {cont : Pass → Work (Option Error)}
    (hstop : ∀ e, cont (.stop e) = Pure.pure e) (hm : m₀.Underway args m)
    (hthrough : ∀ v k, m₀.Underway args k → k.exec.layer = m.exec.layer → k.exec.control = outside →
      Tends l (h.reach n) (fun x => closing c (m₀.exec.calls.length + 1) x (i + 1 + body.size) b'
        (m₀.program.kindOf b').type v) (cont (.through v)) k)
    (hagain : own = true → ∀ bare k, m₀.Underway args k → k.exec.layer = m.exec.layer →
      keepsAtMostOne outside k.exec.control = true →
      Tends l (h.reach n) (fun x => walk x c (m₀.exec.calls.length + 1) { position := i, bareNext := bare })
        (cont (.again bare)) k) {bare : Bool} {prior : Option Value} {cursor : Cursor} {t : BlockType}
    (hpos : cursor.position = i) (hsup : cursor.suppressed = none)
    (hbare : (cursor.bareNext || prior.any (·.isOmitted)) = bare) :
    Tends l (h.reach n)
      (fun x => enter (evaluate x) c (m₀.exec.calls.length + 1) cursor b t prior >>=
        goOn c (m₀.exec.calls.length + 1) x)
      (branch eval' breach (m₀.exec.calls.length + 1) own outside b i bare prior
        (runForest eval' breach (m₀.exec.calls.length + 1) n (i + 1) body) >>= cont) m := by
  obtain ⟨pos, sup, bareNext⟩ := cursor
  subst hpos hsup hbare
  simp only [enter_eq, bind_assoc]
  unfold branch
  rw [bind_assoc]
  refine tends_read rfl ?_
  rw [bind_assoc]
  refine tends_bind (visit_tends hp hs he hm _ _ .opening _ prior) fun r k _ hy hfit => ?_
  obtain ⟨hk, hl⟩ := visit_keeps hs hm hy
  rcases r with e | ⟨v, jump, skip⟩
  · show Tends l _ _ (cont (.stop e)) k
    rw [hstop]
    exact tends_pure hfit e
  dsimp only
  rw [bind_assoc]
  refine tends_read rfl ?_
  rw [bind_assoc]
  refine tends_watch hb fun hok => ?_
  have hj : jump = none := by
    cases jump with
    | none => rfl
    | some j => simp at hok
  subst hj
  dsimp only
  rw [bind_assoc]
  refine Tends.of_apply (v := fun x => openBody (m₀.exec.calls.length + 1) pos v >>= fun layer =>
    walk x c (m₀.exec.calls.length + 1) { position := pos + 1, suppressed := if skip then some layer else none })
    ?_ (fun x => ?_) rfl
  · refine tends_bind (.of_forall fun _ => blind_openBody _ _ v k hfit) fun layer k' _ hy _ => ?_
    obtain ⟨rfl, rfl⟩ := openBody_yields hk hy
    refine (opened_tends hp hs hb h hex he hbr hbody hstop hk (fun v k₂ hk₂ hl₂ => hthrough v k₂ hk₂ (hl₂.trans hl))
      (fun ho bare k₂ hk₂ hl₂ => hagain ho bare k₂ hk₂ (hl₂.trans hl)) v skip).of_apply (fun _ => rfl) ?_
    refine congrFun ?_ _
    rw [bind_assoc]
    refine bind_congr fun flow => ?_
    cases flow <;> rfl
  · have hblock : (k.program.chain c)[pos]? = some b := hk.program ▸ hbr.opener
    rw [bind_apply, leave_open hblock (by rw [hk.program]; exact hbr.opens), ← bind_apply, bind_assoc]
    rfl

/-! ## Repeated branches -/

omit hp hs hb in
theorem AlikeEval.weaken {G : Filter Nat} (he : AlikeEval l F (Apt l) evaluate eval') (hG : G ≤ F) :
    AlikeEval l G (Apt l) evaluate eval' :=
  fun b index mark bare prior m hm => (he b index mark bare prior m hm).weaken hG

/-- A control block, its body, and the first block that closes it, as often as it is repeated. -/
theorem passes_tends (h : Horizon l) (hex : ∀ k, l.excuses (stackFault .control .push k)) {N : Nat}
    (he : AlikeEval l (h.reach N) (Apt l) evaluate eval') {outside : List ControlFrame} {b b' : BlockId} {i layer : Nat}
    {body : Forest} (hbr : Bracketed m₀.program c i b body b') (hop : (m₀.program.kindOf b).type = .control)
    (hbody : ∀ n, n ≤ N → RunsAlike h n m₀ args c eval' breach (i + 1) body)
    {cont : Except (Option Error) Value → Work (Option Error)} (hstop : ∀ e, cont (.error e) = Pure.pure e)
    (hthrough : ∀ v k, m₀.Underway args k → k.exec.layer = layer → k.exec.control = outside →
      Tends l (h.reach N) (fun x => closing c (m₀.exec.calls.length + 1) x (i + 1 + body.size) b'
        (m₀.program.kindOf b').type v) (cont (.ok v)) k)
    {n : Nat} (hn : n ≤ N) (bare : Bool) (hm : m₀.Underway args m) (hl : m.exec.layer = layer) :
    Tends l (h.reach n) (fun x => walk x c (m₀.exec.calls.length + 1) { position := i, bareNext := bare })
      (passes (fun n bare => unlessCancelled .stop (branch eval' breach (m₀.exec.calls.length + 1) true outside b i
        bare none (runForest eval' breach (m₀.exec.calls.length + 1) n (i + 1) body))) n bare >>= cont) m := by
  induction n generalizing bare m with
  | zero =>
    exact Tends.bottom h (by rw [walk]) rfl
  | succ n ih =>
    refine tends_turn ?_
    have hblock : (m.program.chain c)[i]? = some b := hm.program ▸ hbr.opener
    have hkind : (m.program.kindOf b).type = .control := by rw [hm.program, hop]
    have hle : n ≤ N := Nat.le_of_succ_le hn
    unfold passes
    rw [bind_assoc]
    refine Tends.of_apply (v := fun x =>
      unlessCancelled .stop (enter (evaluate x) c (m₀.exec.calls.length + 1) { position := i, bareNext := bare } b
        .control none) >>= goOn c (m₀.exec.calls.length + 1) x) ?_ (fun x => ?_) rfl
    · refine tends_unlessCancelled (fun e => ?_) fun _ => ?_
      · show Tends l _ _ (cont (.error e)) m
        rw [hstop]
        exact tends_pure (Link.fits_of_past hp _) e
      · refine branch_tends hp hs hb h hex (he.weaken (h.mono hle)) hbr (hbody n hle) hstop hm (fun v k hk hlk hck => ?_)
          (fun _ bare k hk hlk _ => ?_) rfl rfl (by simp)
        · exact (hthrough v k hk (hlk.trans hl) hck).weaken (h.mono hle)
        · exact ih hle bare hk (hlk.trans hl)
    · rw [bind_apply, bind_apply, advance_apply hblock, hkind, if_neg (by decide)]
      rfl

end

/-! ## Trees -/

mutual

/-- The structured run of a forest, with what comes after it, follows the walk. -/
theorem forest_tends {l : Link} (hp : l.past = {}) {m₀ : Machine} (hs : m₀.Scoped) {args : List Value}
    {eval' : Evaluator} {breach : Fault} (hb : l.grants breach) {c : ChainId} (h : Horizon l)
    (hex : ∀ k, l.excuses (stackFault .control .push k)) (f : Forest) {n : Nat}
    (he : AlikeEval l (h.reach n) (Apt l) evaluate eval') {i : Nat}
    (hi : StandAt (m₀.program.chain c) i f.blocks) (ht : f.Typed fun b => (m₀.program.kindOf b).type) :
    RunsAlike h n m₀ args c eval' breach i f := by
  intro m w' hm hw
  cases f with
  | nil => exact hw m hm rfl rfl
  | leaf b rest =>
    rw [Forest.Typed] at ht
    rw [Forest.blocks] at hi
    rw [runForest, bind_assoc]
    refine Tends.weaken (tends_turn ?_) (h.shrinks n)
    refine Tends.of_apply (u := single eval' breach (m₀.exec.calls.length + 1) b i >>= onward
      (runForest eval' breach (m₀.exec.calls.length + 1) n (i + 1) rest >>= onward w')) ?_ (fun _ => rfl) ?_
    · refine single_tends hp hs hb he hm hi.head ht.1 fun k hk hlk hck => ?_
      refine forest_tends hp hs hb h hex rest he hi.tail ht.2 _ _ hk fun k' hk' hlk' hck' => ?_
      rw [Nat.add_assoc, ← Forest.size_leaf b]
      exact hw k' hk' (hlk'.trans hlk) (hck'.trans hck)
    · refine congrFun (bind_congr fun flow => ?_) _
      cases flow <;> rfl
  | group b body tail rest =>
    rw [Forest.Typed] at ht
    rw [Forest.blocks] at hi
    obtain ⟨htb, htbody, httail, htrest⟩ := ht
    have htail := hi.tail.right.left
    rw [runForest, bind_assoc]
    refine tends_read rfl ?_
    dsimp only
    rw [bind_assoc]
    have hbr : Bracketed m₀.program c i b body tail.first :=
      ⟨hi.head, by rw [htb]; rfl, hi.tail.left, htbody, htail.first, Tail.first_closes httail⟩
    refine passes_tends hp hs hb h hex he hbr htb
      (fun n hn => forest_tends hp hs hb h hex body (he.weaken (h.mono hn)) hi.tail.left htbody)
      (fun e => rfl) (fun v k hk hlk hck => ?_) (Nat.le_refl n) false hm rfl
    dsimp only
    rw [bind_assoc]
    refine Tends.of_apply (u := runTail eval' breach (m₀.exec.calls.length + 1) n m.exec.control
      (i + 1 + body.size) v tail >>= onward (runForest eval' breach (m₀.exec.calls.length + 1) n
        (i + 1 + body.size + tail.size) rest >>= onward w')) ?_ (fun _ => rfl) ?_
    · refine tail_tends hp hs hb h hex tail he htail httail hk hck fun k' hk' hlk' hck' => ?_
      refine forest_tends hp hs hb h hex rest he hi.tail.right.right htrest _ _ hk' fun k₂ hk₂ hlk₂ hck₂ => ?_
      have hsize : i + 1 + body.size + tail.size + rest.size = i + (Forest.group b body tail rest).size := by
        rw [Forest.size_group]
        omega
      have hend := hw k₂ hk₂ (hlk₂.trans (hlk'.trans hlk)) (hck₂.trans hck')
      rwa [← hsize] at hend
    · refine congrFun (bind_congr fun flow => ?_) _
      cases flow <;> rfl

/-- So does that of what closes a body. -/
theorem tail_tends {l : Link} (hp : l.past = {}) {m₀ : Machine} (hs : m₀.Scoped) {args : List Value}
    {eval' : Evaluator} {breach : Fault} (hb : l.grants breach) {c : ChainId} (h : Horizon l)
    (hex : ∀ k, l.excuses (stackFault .control .push k)) (t : Tail) {n : Nat}
    (he : AlikeEval l (h.reach n) (Apt l) evaluate eval') {j : Nat}
    (hi : StandAt (m₀.program.chain c) j t.blocks) (ht : t.Typed fun b => (m₀.program.kindOf b).type)
    {m : Machine} (hm : m₀.Underway args m) {outside : List ControlFrame} (hctl : m.exec.control = outside)
    {v : Value} {w' : Work (Option Error)}
    (hw : ∀ k, m₀.Underway args k → k.exec.layer = m.exec.layer → k.exec.control = outside →
      Tends l (h.reach n) (fun x => walk x c (m₀.exec.calls.length + 1) { position := j + t.size }) w' k) :
    Tends l (h.reach n)
      (fun x => closing c (m₀.exec.calls.length + 1) x j t.first (m₀.program.kindOf t.first).type v)
      (runTail eval' breach (m₀.exec.calls.length + 1) n outside j v t >>= onward w') m := by
  cases t with
  | stop b =>
    have htb : (m₀.program.kindOf b).type = .terminator := ht
    rw [runTail, bind_assoc]
    simp only [closing, Tail.first, htb]
    refine tends_bind (.of_forall fun _ => blind_release v m (Link.fits_of_past hp _)) fun _ k _ hy _ => ?_
    cases hy
    exact hw _ (hm.of_eq rfl rfl) rfl hctl
  | more b body tail =>
    rw [Tail.Typed] at ht
    rw [Tail.blocks] at hi
    obtain ⟨htb, htbody, httail⟩ := ht
    have htail := hi.tail.right
    rw [runTail, bind_assoc]
    simp only [closing, Tail.first, htb]
    have hbr : Bracketed m₀.program c j b body tail.first :=
      ⟨hi.head, by rw [htb]; rfl, hi.tail.left, htbody, htail.first, Tail.first_closes httail⟩
    refine branch_tends hp hs hb h hex he hbr (forest_tends hp hs hb h hex body he hi.tail.left htbody)
      (fun e => rfl) hm (fun v k hk hlk hck => ?_) (fun ho => absurd ho (by decide)) rfl rfl rfl
    refine tail_tends hp hs hb h hex tail he htail httail hk hck fun k' hk' hlk' hck' => ?_
    have hsize : j + 1 + body.size + tail.size = j + (Tail.more b body tail).size := by
      rw [Tail.size_more]
      omega
    have hend := hw k' hk' (hlk'.trans hlk) hck'
    rwa [← hsize] at hend

end

/-! ## Invocations -/

/-- Invocations relate where what runs the chain inside them does. -/
theorem invokeWith_tends {l : Link} {F : Filter Nat} {w : Nat → ChainId → Nat → Work (Option Error)}
    {w' : ChainId → Nat → Work (Option Error)} {c : ChainId} {args : List Value} {m₀ : Machine} (hfit : l.Fits m₀)
    (hw : l.Fits { m₀ with exec.calls := { args := args } :: m₀.exec.calls } →
      Tends l F (fun n => w n c (m₀.exec.calls.length + 1)) (w' c (m₀.exec.calls.length + 1))
        { m₀ with exec.calls := { args := args } :: m₀.exec.calls }) :
    Tends l F (fun n => invokeWith (w n) c args) (invokeWith w' c args) m₀ := by
  simp only [invokeWith_eq]
  refine Tends.of_apply (v := fun n => pushCall { args := args } >>= fun _ => _)
    (u := pushCall { args := args } >>= fun _ => _) ?_ (fun n => rfl) rfl
  refine tends_bind (.of_forall fun _ => blind_pushCall _ m₀ hfit) fun _ k _ hy hfit => ?_
  have hk : k = { m₀ with exec.calls := { args := args } :: m₀.exec.calls } := by
    unfold Yields pushCall at hy
    split at hy
    · cases hy
      rfl
    · cases hy
  subst hk
  refine Tends.of_apply (v := fun n => w n c (m₀.exec.calls.length + 1) >>= fun e => _)
    (u := w' c (m₀.exec.calls.length + 1) >>= fun e => _) ?_ (fun n => rfl) rfl
  refine tends_bind (hw hfit) fun error k _ _ hfit => .of_forall fun _ => ?_
  refine blind_bind (blind_endCall _ _) (fun v => ?_) k hfit
  cases error with
  | none => exact blind_pure _
  | some e => exact blind_bind (blind_release v) fun _ => blind_pure _

section

variable {l : Link} (hp : l.past = {}) {breach : Fault} (hb : l.grants breach) (h : Horizon l)
  (hex : ∀ k, l.excuses (stackFault .control .push k))
include hp hb hex

theorem runChain_tends {n : Nat} {eval' : Evaluator} (he : AlikeEval l (h.reach n) (Apt l) evaluate eval') {m₀ m : Machine}
    (hs : m₀.Scoped) {args : List Value} (hm : m₀.Underway args m) (c : ChainId) :
    Tends l (h.reach n) (fun x => walk x c (m₀.exec.calls.length + 1) {})
      (runChain eval' breach (m₀.exec.calls.length + 1) n c) m := by
  unfold runChain
  refine tends_read rfl ?_
  cases htree : m.program.tree? c with
  | none => exact tends_crash hb
  | some f =>
    obtain ⟨hblocks, htyped⟩ := blocks_of_tree (hm.program ▸ htree)
    refine Tends.of_apply (u := runForest eval' breach (m₀.exec.calls.length + 1) n 0 f >>= onward (Pure.pure none))
      ?_ (fun _ => rfl) ?_
    · have hstand : StandAt (m₀.program.chain c) 0 f.blocks := by
        rw [hblocks]
        exact List.prefix_refl _
      refine forest_tends hp hs hb h hex f he hstand htyped _ _ hm fun k hk _ _ => ?_
      refine Tends.weaken (tends_turn ?_) (h.shrinks n)
      refine (tends_pure (Link.fits_of_past hp _) none).of_apply (fun x => ?_) rfl
      have hend : (k.program.chain c)[0 + f.size]? = none := by
        rw [hk.program, ← hblocks, Nat.zero_add]
        exact List.getElem?_eq_none (Nat.le_refl _)
      rw [bind_apply, advance_eq, blocksOf, read_bind, hend]
      rfl
    · refine congrFun (bind_congr fun flow => ?_) _
      cases flow <;> rfl

/-- Blocks evaluate and chains are invoked alike by the walk and by the structured interpreter, for
    the fuels that count. -/
theorem simulates (n : Nat) :
    AlikeEval l (h.reach n) (Apt l) evaluate (Structured.evaluate breach n) ∧
      AlikeInvoke l (h.reach n) (fun m => m.Scoped ∧ l.Fits m) invoke (Structured.invoke breach n) := by
  induction n with
  | zero =>
    refine ⟨fun b index mark bare prior m _ => ?_, fun c args m _ => ?_⟩
    · exact Tends.bottom h (by rw [evaluate]) (by rw [Structured.evaluate]; rfl)
    · exact Tends.bottom h (by rw [invoke]) (by rw [Structured.invoke]; rfl)
  | succ n ih =>
    obtain ⟨he, hi⟩ := ih
    refine ⟨fun b index mark bare prior m hm => ?_, fun c args m hm => ?_⟩
    · have := evaluateWith_alike ground_apt he (fun n => (keeps_scopes n).1)
        (fun c args m hm => hi c args m ⟨hm.toScoped, hm.fits⟩) (fun n => (keeps_scopes n).2.1)
      rw [Structured.evaluate]
      exact (this b index mark bare prior m hm).succ (by rw [evaluate]) fun n => by rw [evaluate]
    · obtain ⟨hs, hfit⟩ := hm
      rw [Structured.invoke]
      refine Tends.succ (v := fun n => invokeWith (fun c depth => walk n c depth {}) c args) ?_ (by rw [invoke])
        fun n => by rw [invoke]
      exact invokeWith_tends hfit fun _ => runChain_tends hp hb h hex he hs (.begun m args) c

end

end BlockEngine.Work
