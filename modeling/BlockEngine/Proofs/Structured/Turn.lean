/-
  BlockEngine.Proofs.Structured.Turn — single turns of the walk, seen from the bracket tree.

  The walk takes one turn for a plain block, for entering a control block, and for closing a body,
  after which it enters the continuation that closed it. Each turn is written here with the parts
  of the structured interpreter, and a suppressed body is shown to pass without a trace, as long as
  there is room for the frames of the bodies in it (`skips_forest`).
-/

import BlockEngine.Proofs.Machine.Passage
import BlockEngine.Proofs.Machine.Relate
import BlockEngine.Proofs.Structured.Interpreter

namespace BlockEngine

open Structured (watch unlessCancelled visit)

/-! ## Fuel -/

/-- Which fuels of the walk count beside a number that bounds the structured run. -/
structure Horizon (l : Link) where
  reach : Nat → Filter Nat
  shrinks : ∀ n, reach n ≤ reach (n + 1)
  /-- A turn of the walk takes one unit. -/
  turn : ∀ n (p : Nat → Prop), (∀ᶠ k in reach n, p k) →
    ∀ᶠ k in reach (n + 1), (k = 0 ∧ l.firstStarves) ∨ ∃ j, k = j + 1 ∧ p j
  bottom : l.secondStarves ∨ (l.firstStarves ∧ ∀ᶠ k in reach 0, k = 0)

theorem Horizon.mono {l : Link} (h : Horizon l) : Monotone h.reach := monotone_nat_of_le_succ h.shrinks

namespace Work

variable {α β : Type} {l : Link} {F : Filter Nat} {m : Machine}

/-! ## Comparing on one machine -/

theorem Tends.of_apply {w v : Nat → Work α} {w' u : Work α} (h : Tends l F v u m)
    (hw : ∀ n, w n m = v n m) (hw' : w' (l.second m) = u (l.second m)) : Tends l F w w' m := by
  unfold Tends Follows at h ⊢
  simpa only [hw, hw'] using h

theorem Tends.weaken {G : Filter Nat} {w : Nat → Work α} {w' : Work α} (h : Tends l F w w' m) (hG : G ≤ F) :
    Tends l G w w' m := h.filter_mono hG

def goOn (c : ChainId) (depth n : Nat) : Turn → Work (Option Error)
  | .next cursor => walk n c depth cursor
  | .stop error => return error

theorem walk_succ (n : Nat) (c : ChainId) (depth : Nat) (cursor : Cursor) :
    walk (n + 1) c depth cursor = advance (evaluate n) c depth cursor >>= goOn c depth n := by
  rw [walk]
  rfl

/-- A family that takes one unit more. -/
theorem Tends.succ {h : Horizon l} {n : Nat} {w v : Nat → Work α} {w' : Work α}
    (hv : Tends l (h.reach n) v w' m) (hz : w 0 = starve) (hw : ∀ n, w (n + 1) = v n) :
    Tends l (h.reach (n + 1)) w w' m := by
  refine (h.turn n _ hv).mono fun k hk => ?_
  rcases hk with ⟨rfl, hs⟩ | ⟨j, rfl, hj⟩
  · rw [hz]
    exact .starved m _ hs
  · rw [hw]
    exact hj

/-- Without fuel both starve. -/
theorem Tends.bottom (h : Horizon l) {w : Nat → Work α} {w' : Work α} (hz : w 0 = starve) {k : Machine}
    (hw' : w' (l.second m) = .starved k) : Tends l (h.reach 0) w w' m := by
  rcases h.bottom with hs | ⟨hs, hk⟩
  · refine .of_forall fun _ => ?_
    unfold Follows
    rw [hw']
    exact .starves _ k hs
  · refine hk.mono fun x hx => ?_
    rw [hx, hz]
    exact .starved m _ hs

theorem tends_turn {h : Horizon l} {n : Nat} {c : ChainId} {depth : Nat} {cursor : Cursor}
    {w' : Work (Option Error)}
    (ht : Tends l (h.reach n) (fun k => advance (evaluate k) c depth cursor >>= goOn c depth k) w' m) :
    Tends l (h.reach (n + 1)) (fun k => walk k c depth cursor) w' m :=
  ht.succ (by rw [walk]) fun n => walk_succ n c depth cursor

theorem tends_crash {f : Fault} {w : Nat → Work α} (hf : l.grants f) : Tends l F w (crash f) m :=
  .of_forall fun _ => .granted _ _ hf

theorem tends_watch {breach : Fault} (hb : l.grants breach) {ok : Bool} {w : Nat → Work α} {w' : Work α}
    (h : ok = true → Tends l F w w' m) : Tends l F w (watch breach ok >>= fun _ => w') m := by
  cases ok with
  | false => exact .of_forall fun _ => .granted _ _ hb
  | true => exact h rfl

theorem read_bind (g : Machine → α) (f : α → Work β) (m : Machine) : (read g >>= f) m = f (g m) m := rfl

theorem unlessCancelled_bind (stop : Option Error → α) (w : Work α) (f : α → Work β) (m : Machine) :
    (unlessCancelled stop w >>= f) m =
      match m.exec.cancelled with
      | some cause => f (stop (some (.cancelled cause))) m
      | none => (w >>= f) m := by
  rw [unlessCancelled, bind_assoc, read_bind]
  cases m.exec.cancelled <;> rfl

/-- A run that was cancelled ends on both sides. -/
theorem tends_unlessCancelled {stop : Option Error → α} {stop' : Option Error → β} {w : Nat → Work α}
    {w' : Work β} {γ : Type} {f : Nat → α → Work γ} {f' : β → Work γ}
    (hs : ∀ e, Tends l F (fun n => f n (stop e)) (f' (stop' e)) m)
    (hw : m.exec.cancelled = none → Tends l F (fun n => w n >>= f n) (w' >>= f') m) :
    Tends l F (fun n => unlessCancelled stop (w n) >>= f n) (unlessCancelled stop' w' >>= f') m := by
  have he : (l.second m).exec.cancelled = m.exec.cancelled := rfl
  cases hc : m.exec.cancelled with
  | some cause =>
    refine (hs (some (.cancelled cause))).of_apply (fun n => ?_) ?_
    · rw [unlessCancelled_bind, hc]
    · rw [unlessCancelled_bind, he, hc]
  | none =>
    refine (hw hc).of_apply (fun n => ?_) ?_
    · rw [unlessCancelled_bind, hc]
    · rw [unlessCancelled_bind, he, hc]

/-! ## Turns -/

/-- Entering a block at the cursor. -/
theorem enter_eq (eval : Evaluator) (c : ChainId) (depth : Nat) (cursor : Cursor) (b : BlockId) (t : BlockType)
    (prior : Option Value) :
    enter eval c depth cursor b t prior = (do
      let r ← visit eval depth b cursor.position .opening (cursor.bareNext || prior.any (·.isOmitted)) prior
      match r with
      | .error e => return .stop e
      | .ok (v, asked) =>
        match asked.jump with
        | none => leave c depth { cursor with bareNext := false } cursor.position (cursor.position + 1) v asked.skip
        | some j =>
          let size := (← blocksOf c).length
          if size < j then
            release v
            return .stop (some (← badJump c cursor.position))
          else if t == .continuation && j != cursor.position + 1 && decide (j < size) then
            redirect eval c depth { cursor with bareNext := false } j v
          else leave c depth { cursor with bareNext := false } cursor.position j v asked.skip) := by
  unfold enter visit
  rw [bind_assoc]
  refine bind_congr fun r => ?_
  cases r with
  | error e => rfl
  | ok va =>
    dsimp only
    rw [bind_assoc]
    refine bind_congr fun finished => ?_
    cases finished <;> rfl

theorem reenter_eq (eval : Evaluator) (c : ChainId) (depth : Nat) (cursor : Cursor) (t : BlockType)
    (opener : Nat) (v : Value) :
    reenter eval c depth cursor t opener v = (do
      let b ← blockAt c opener
      let r ← visit eval depth b opener .closing true (some v)
      match r with
      | .error e => return .over (.stop e)
      | .ok (v, asked) =>
        match asked.jump with
        | some j =>
          release v
          if (← blocksOf c).length < j then return .over (.stop (some (← badJump c opener)))
          else return .over (.next { cursor with position := j, bareNext := v.isOmitted })
        | none =>
          if t == .terminator then
            release v
            return .over (.next { cursor with position := cursor.position + 1 })
          else return .onward cursor (some v)) := by
  unfold reenter visit
  refine bind_congr fun b => ?_
  rw [bind_assoc]
  refine bind_congr fun r => ?_
  cases r with
  | error e => rfl
  | ok va =>
    dsimp only
    rw [bind_assoc]
    refine bind_congr fun finished => ?_
    cases finished <;> rfl

theorem blockAt_apply {c : ChainId} {b : BlockId} {i : Nat} (hb : (m.program.chain c)[i]? = some b) :
    blockAt c i m = .done b m := by
  rw [blockAt, blocksOf, read_bind, hb]
  rfl

theorem leave_leaf {c : ChainId} {b : BlockId} {i : Nat} (hb : (m.program.chain c)[i]? = some b)
    (ht : (m.program.kindOf b).type.opens = false) (depth : Nat) (cursor : Cursor) (target : Nat) (v : Value)
    (skip : Bool) :
    leave c depth cursor i target v skip m =
      (release v >>= fun _ => Pure.pure (.next { cursor with position := target })) m := by
  rw [leave, bind_apply, blockAt_apply hb]
  show (kindOf b >>= _) m = _
  rw [kindOf, read_bind, if_neg (by simp [ht])]

theorem leave_open {c : ChainId} {b : BlockId} {i : Nat} (hb : (m.program.chain c)[i]? = some b)
    (ht : (m.program.kindOf b).type.opens = true) (depth : Nat) (cursor : Cursor) (target : Nat) (v : Value)
    (skip : Bool) :
    leave c depth cursor i target v skip m =
      (openBody depth i v >>= fun layer => Pure.pure (.next
        { cursor with position := target, suppressed := if skip then some layer else cursor.suppressed })) m := by
  rw [leave, bind_apply, blockAt_apply hb]
  show (kindOf b >>= _) m = _
  rw [kindOf, read_bind, if_pos ht]

/-- A turn at a block of the chain. -/
theorem advance_apply {eval : Evaluator} {c : ChainId} {cursor : Cursor} {b : BlockId}
    (hb : (m.program.chain c)[cursor.position]? = some b) (depth : Nat) :
    advance eval c depth cursor m =
      unlessCancelled .stop
        ((if (m.program.kindOf b).type.closes then closeBody eval c depth cursor (m.program.kindOf b).type
          else return .onward cursor none) >>= takeUp eval c depth b (m.program.kindOf b).type) m := by
  rw [advance_eq, blocksOf, read_bind, hb]
  dsimp only
  rw [read_bind, unlessCancelled, read_bind]
  cases m.exec.cancelled <;> rfl

/-- A run that was cancelled stops at the next block. -/
theorem advance_cancelled {eval : Evaluator} {c : ChainId} {cursor : Cursor} {b : BlockId} {cause : CancelCause}
    (hb : (m.program.chain c)[cursor.position]? = some b) (hx : m.exec.cancelled = some cause) (depth : Nat) :
    advance eval c depth cursor m = .done (.stop (some (.cancelled cause))) m := by
  rw [advance_apply hb, unlessCancelled, read_bind, hx]
  rfl

theorem unlessCancelled_none {stop : Option Error → α} {w : Work α} (h : m.exec.cancelled = none) :
    unlessCancelled stop w m = w m := by
  rw [unlessCancelled, read_bind, h]

end Work

/-! ## Blocks in their places -/

def StandAt (bs : List BlockId) (i : Nat) (xs : List BlockId) : Prop := xs <+: bs.drop i

namespace StandAt

variable {bs xs ys : List BlockId} {i : Nat} {x : BlockId}

theorem head (h : StandAt bs i (x :: xs)) : bs[i]? = some x := by
  obtain ⟨rest, hr⟩ := h
  have : (bs.drop i)[0]? = some x := by rw [← hr]; rfl
  rwa [List.getElem?_drop] at this

theorem tail (h : StandAt bs i (x :: xs)) : StandAt bs (i + 1) xs := by
  obtain ⟨rest, hr⟩ := h
  exact ⟨rest, by rw [← List.drop_drop, ← hr]; rfl⟩

theorem first {t : Tail} (h : StandAt bs i t.blocks) : bs[i]? = some t.first := by
  cases t <;> exact h.head

theorem left (h : StandAt bs i (xs ++ ys)) : StandAt bs i xs := (List.prefix_append xs ys).trans h

theorem right (h : StandAt bs i (xs ++ ys)) : StandAt bs (i + xs.length) ys := by
  obtain ⟨rest, hr⟩ := h
  refine ⟨rest, ?_⟩
  rw [← List.drop_drop, ← hr, List.append_assoc]
  simp

end StandAt

namespace Work

/-! ## Suppressed bodies -/

section

variable {l : Link} {m₀ m : Machine} {args : List Value} {c : ChainId} {s : Nat} {b : BlockId} {i : Nat}

def passing (s i : Nat) : Cursor := { position := i, suppressed := some s }

theorem skips_leaf (eval : Evaluator) (depth : Nat) (hb : (m.program.chain c)[i]? = some b)
    (ho : (m.program.kindOf b).type.opens = false) (hc : (m.program.kindOf b).type.closes = false)
    (hx : m.exec.cancelled = none) :
    advance eval c depth (passing s i) m = .done (.next (passing s (i + 1))) m := by
  rw [advance_apply hb, unlessCancelled_none hx, if_neg (by simp [hc]), bind_apply]
  show passOver depth (passing s i) _ m = _
  rw [passOver, if_neg (by simp [ho])]
  rfl

theorem skips_open (eval : Evaluator) (hm : m₀.Underway args m) (hb : (m.program.chain c)[i]? = some b)
    (ht : (m.program.kindOf b).type = .control) (hx : m.exec.cancelled = none) :
    advance eval c (m₀.exec.calls.length + 1) (passing s i) m =
      if m.exec.control.length < m.exec.limits.control then .done (.next (passing s (i + 1))) (m.inBody i .nothing)
      else .fault (stackFault .control .push m.exec.limits.control) m := by
  rw [advance_apply hb, unlessCancelled_none hx, ht, if_neg (by decide), bind_apply]
  show passOver (m₀.exec.calls.length + 1) (passing s i) .control m = _
  rw [passOver, if_pos (by decide), bind_apply, openBody_apply hm.calls_length hm.calls_ne]
  show (if _ then _ else _ : Outcome Nat).bind _ = _
  split <;> rfl

/-- Closing a suppressed body, with what the block that closes it goes on to. -/
theorem closeBody_passing (eval : Evaluator) (hm : m₀.Underway args m) (hs : m₀.Scoped) (hl : s ≤ m.exec.layer)
    (j : Nat) (t : BlockType) :
    closeBody eval c (m₀.exec.calls.length + 1) (passing s i) t (m.inBody j .nothing) =
      .done (if t == .terminator then .over (.next (passing s (i + 1))) else .onward (passing s i) none) m := by
  have hk := hm.opened j .nothing
  have hlayer : (m.inBody j .nothing).exec.layer = m.exec.layer + 1 := hm.layer_inBody j .nothing
  have hcursor : (passing s i).closedTo m.exec.layer = passing s i := by
    simp [Cursor.closedTo, passing, Nat.not_lt.mpr hl]
  rw [closeBody_apply hk.calls_length hk.calls_ne hlayer rfl, hm.outOfBody_inBody hs, hcursor]
  cases t <;> rfl

theorem skips_stop (eval : Evaluator) (hm : m₀.Underway args m) (hs : m₀.Scoped) (hl : s ≤ m.exec.layer)
    (hb : (m.program.chain c)[i]? = some b) (ht : (m.program.kindOf b).type = .terminator)
    (hx : m.exec.cancelled = none) (j : Nat) :
    advance eval c (m₀.exec.calls.length + 1) (passing s i) (m.inBody j .nothing) =
      .done (.next (passing s (i + 1))) m := by
  have hb' : ((m.inBody j .nothing).program.chain c)[(passing s i).position]? = some b := hb
  have ht' : ((m.inBody j .nothing).program.kindOf b).type = .terminator := ht
  have hx' : (m.inBody j .nothing).exec.cancelled = none := hx
  rw [advance_apply hb', unlessCancelled_none hx', ht', if_pos (by decide), bind_apply,
    closeBody_passing eval hm hs hl]
  rfl

theorem skips_more (eval : Evaluator) (hm : m₀.Underway args m) (hs : m₀.Scoped) (hl : s ≤ m.exec.layer)
    (hb : (m.program.chain c)[i]? = some b) (ht : (m.program.kindOf b).type = .continuation)
    (hx : m.exec.cancelled = none) (j : Nat) :
    advance eval c (m₀.exec.calls.length + 1) (passing s i) (m.inBody j .nothing) =
      if m.exec.control.length < m.exec.limits.control then .done (.next (passing s (i + 1))) (m.inBody i .nothing)
      else .fault (stackFault .control .push m.exec.limits.control) m := by
  have hb' : ((m.inBody j .nothing).program.chain c)[(passing s i).position]? = some b := hb
  have ht' : ((m.inBody j .nothing).program.kindOf b).type = .continuation := ht
  have hx' : (m.inBody j .nothing).exec.cancelled = none := hx
  rw [advance_apply hb', unlessCancelled_none hx', ht', if_pos (by decide), bind_apply,
    closeBody_passing eval hm hs hl]
  show passOver (m₀.exec.calls.length + 1) (passing s i) .continuation m = _
  rw [passOver, if_pos (by decide), bind_apply, openBody_apply hm.calls_length hm.calls_ne]
  show (if _ then _ else _ : Outcome Nat).bind _ = _
  split <;> rfl

/-- A step in a suppressed body, which does not depend on how blocks are evaluated. It may open a body, and
    needs room for a frame then, on a machine of which `P` holds. -/
inductive Skips (c : ChainId) (depth : Nat) (P : Machine → Prop) (x : Cursor) (m : Machine) (y : Cursor) (k : Machine) :
    Prop
  | turn : (∀ eval, advance eval c depth x m = .done (.next y) k) → Skips c depth P x m y k
  | push (m' : Machine) : P m' →
      (∀ eval, advance eval c depth x m =
        if m'.exec.control.length < m'.exec.limits.control then .done (.next y) k
        else .fault (stackFault .control .push m'.exec.limits.control) m') →
      Skips c depth P x m y k

/-- With room for the frames of all bodies, the steps are turns of the walk. -/
theorem Skips.turns {depth : Nat} {P : Machine → Prop} {x y : Cursor} {k : Machine}
    (hP : ∀ m, P m → m.exec.control.length < m.exec.limits.control) (h : Skips c depth P x m y k) :
    Turns c depth x m y k := by
  cases h with
  | turn h => exact .of_forall fun n => h (evaluate n)
  | push m' hm' h => exact .of_forall fun n => (h (evaluate n)).trans (if_pos (hP m' hm'))

/-- Whatever follows the walk from one point follows it from another. -/
def Leads (h : Horizon l) (n : Nat) (c : ChainId) (depth : Nat) (x y : Cursor × Machine) : Prop :=
  ∀ o : Outcome (Option Error),
    (∀ᶠ k in h.reach n, Outcome.Follows l ((walk k c depth y.1 y.2).driven l.host) o) →
    ∀ᶠ k in h.reach n, Outcome.Follows l ((walk k c depth x.1 x.2).driven l.host) o

variable {h : Horizon l} {n depth : Nat}

theorem Leads.turn {cursor cursor' : Cursor} {m k : Machine}
    (ha : ∀ eval, advance eval c depth cursor m = .done (.next cursor') k) :
    Leads h n c depth (cursor, m) (cursor', k) := by
  intro o ho
  refine h.shrinks n ((h.turn n _ ho).mono fun j hj => ?_)
  rcases hj with ⟨rfl, hs⟩ | ⟨j, rfl, hj⟩
  · show Outcome.Follows l ((walk 0 c depth cursor m).driven l.host) o
    rw [walk]
    exact .starved m o hs
  · show Outcome.Follows l ((walk (j + 1) c depth cursor m).driven l.host) o
    rw [walk_succ, bind_apply, ha]
    exact hj

/-- A full control stack is excused. -/
theorem Skips.leads (hex : ∀ k, l.excuses (stackFault .control .push k)) {P : Machine → Prop} {x y : Cursor}
    {k : Machine} (hstep : Skips c depth P x m y k) : Leads h n c depth (x, m) (y, k) := by
  cases hstep with
  | turn ha => exact .turn ha
  | push m' _ ha =>
    by_cases hr : m'.exec.control.length < m'.exec.limits.control
    · exact .turn fun eval => (ha eval).trans (if_pos hr)
    · intro o ho
      refine h.shrinks n ((h.turn n _ ho).mono fun j hj => ?_)
      rcases hj with ⟨rfl, hs⟩ | ⟨j, rfl, -⟩
      · show Outcome.Follows l ((walk 0 c depth x m).driven l.host) o
        rw [walk]
        exact .starved m o hs
      · show Outcome.Follows l ((walk (j + 1) c depth x m).driven l.host) o
        rw [walk_succ, bind_apply, ha, if_neg hr]
        exact .excused m' o (hex _)

/-- So does what follows it through a suppressed body. -/
theorem leads_of_skips (hex : ∀ k, l.excuses (stackFault .control .push k)) {P : Machine → Prop} {lo hi : Nat}
    {x y : Cursor} {k : Machine} (hp : Passage (Skips c depth P) lo hi x m y k) :
    Leads h n c depth (x, m) (y, k) := by
  induction hp with
  | here => exact fun o ho => ho
  | step _ _ hstep _ ih => exact fun o ho => hstep.leads hex o (ih o ho)

end

mutual

/-- The walk passes a suppressed forest without a trace. -/
theorem skips_forest {m₀ : Machine} (hs : m₀.Scoped) {args : List Value} {c : ChainId} {s : Nat} (f : Forest) {i : Nat}
    (hi : StandAt (m₀.program.chain c) i f.blocks) (ht : f.Typed fun b => (m₀.program.kindOf b).type)
    {m : Machine} (hm : m₀.Underway args m) (hl : s ≤ m.exec.layer) (hx : m.exec.cancelled = none) {P : Machine → Prop}
    (hP : ∀ k, m₀.Underway args k → k.exec.control.length < m.exec.control.length + f.depth → P k) :
    Passage (Skips c (m₀.exec.calls.length + 1) P) i (i + f.size) (passing s i) m (passing s (i + f.size)) m := by
  cases f with
  | nil => exact .here _ m
  | leaf b rest =>
    rw [Forest.Typed] at ht
    rw [Forest.blocks] at hi
    rw [Forest.depth] at hP
    have hb : (m.program.chain c)[i]? = some b := hm.program ▸ hi.head
    have hrest := skips_forest hs rest hi.tail ht.2 hm hl hx hP
    rw [Forest.size_leaf, ← Nat.add_assoc]
    refine .step (Nat.le_refl i) (by show i < _; omega) (.turn fun eval => skips_leaf eval _ hb ?_ ?_ hx)
      (hrest.widen (Nat.le_succ i) (Nat.le_refl _))
    · rw [hm.program]
      exact ht.1.1
    · rw [hm.program]
      exact ht.1.2
  | group b body tail rest =>
    rw [Forest.Typed] at ht
    rw [Forest.blocks] at hi
    rw [Forest.depth] at hP
    obtain ⟨hb, hbody, htail, hrest⟩ := ht
    have hat : (m.program.chain c)[i]? = some b := hm.program ▸ hi.head
    have hk := hm.opened i .nothing
    have hkl : s ≤ (m.inBody i .nothing).exec.layer := hm.layer_inBody i .nothing ▸ Nat.le_succ_of_le hl
    have hkc : (m.inBody i .nothing).exec.control.length = m.exec.control.length + 1 := rfl
    have hpast := skips_forest hs body hi.tail.left hbody hk hkl hx fun k hk' hlt => hP k hk' (by omega)
    have hclosed := skips_tail (i := i + 1 + body.size) hs tail hi.tail.right.left htail hm hl hx i
      fun k hk' hlt => hP k hk' (by omega)
    have hafter := skips_forest (i := i + 1 + body.size + tail.size) hs rest hi.tail.right.right hrest hm hl hx
      fun k hk' hlt => hP k hk' (by omega)
    rw [Forest.size_group, ← Nat.add_assoc, ← Nat.add_assoc, ← Nat.add_assoc]
    refine .step (Nat.le_refl i) (by show i < _; omega)
      (.push m (hP m hm (by omega)) fun eval => skips_open eval hm hat (by rw [hm.program]; exact hb) hx) ?_
    exact ((hpast.widen (by omega) (by omega)).trans (hclosed.widen (by omega) (by omega))).trans
      (hafter.widen (by omega) (Nat.le_refl _))

theorem skips_tail {m₀ : Machine} (hs : m₀.Scoped) {args : List Value} {c : ChainId} {s : Nat} (t : Tail) {i : Nat}
    (hi : StandAt (m₀.program.chain c) i t.blocks) (ht : t.Typed fun b => (m₀.program.kindOf b).type)
    {m : Machine} (hm : m₀.Underway args m) (hl : s ≤ m.exec.layer) (hx : m.exec.cancelled = none) (j : Nat)
    {P : Machine → Prop}
    (hP : ∀ k, m₀.Underway args k → k.exec.control.length < m.exec.control.length + t.depth → P k) :
    Passage (Skips c (m₀.exec.calls.length + 1) P) i (i + t.size) (passing s i) (m.inBody j .nothing)
      (passing s (i + t.size)) m := by
  cases t with
  | stop b =>
    have hat : (m.program.chain c)[i]? = some b := hm.program ▸ hi.head
    exact .one (Nat.le_refl i) (Nat.lt_succ_self i)
      (.turn fun eval => skips_stop eval hm hs hl hat (by rw [hm.program]; exact ht) hx j)
  | more b body tail =>
    rw [Tail.Typed] at ht
    rw [Tail.blocks] at hi
    rw [Tail.depth] at hP
    obtain ⟨hb, hbody, htail⟩ := ht
    have hat : (m.program.chain c)[i]? = some b := hm.program ▸ hi.head
    have hk := hm.opened i .nothing
    have hkl : s ≤ (m.inBody i .nothing).exec.layer := hm.layer_inBody i .nothing ▸ Nat.le_succ_of_le hl
    have hkc : (m.inBody i .nothing).exec.control.length = m.exec.control.length + 1 := rfl
    have hpast := skips_forest hs body hi.tail.left hbody hk hkl hx fun k hk' hlt => hP k hk' (by omega)
    have hclosed := skips_tail (i := i + 1 + body.size) hs tail hi.tail.right htail hm hl hx i
      fun k hk' hlt => hP k hk' (by omega)
    rw [Tail.size_more, ← Nat.add_assoc, ← Nat.add_assoc]
    refine .step (Nat.le_refl i) (by show i < _; omega)
      (.push m (hP m hm (by omega)) fun eval => skips_more eval hm hs hl hat (by rw [hm.program]; exact hb) hx j) ?_
    exact (hpast.widen (by omega) (by omega)).trans (hclosed.widen (by omega) (Nat.le_refl _))

end

end Work

end BlockEngine
