/-
  BlockEngine.Proofs.Library.Termination — programs without `loop` and `while` terminate.

  A walk goes back only from the end of a repetition, which has fewer passes left then. What is ahead of
  a walk is counted position by position of its chain (`rank`): where a body was opened what is left of
  it (`Owed`), and everything from where the walk has come to. A turn leaves less ahead at one position
  and just as much before it (`Less`). After it there may be more: a repetition inside another begins
  anew with every pass of that.

  Proved, for regions of standard blocks without `loop` and `while`:
  - `advance_progresses`: a turn of a walk ends, and with less ahead than before.
  - `walk_ends`: so a walk ends in which evaluations do.
  - `evaluate_ends`, `invoke_ends`: these end by the depth to which blocks are nested, and by how many
    more invocations can be begun inside each other.
  - `worker_terminates`: every run of such a program ends.
-/

import BlockEngine.Proofs.Library.Ending
import BlockEngine.Proofs.Library.Walk
import Mathlib.Data.DFinsupp.WellFounded

namespace BlockEngine

/-! ## What is ahead -/

section

variable (p : Program) (c : ChainId)

/-- What the open bodies of an invocation of a chain have ahead, by the positions of their openers: two
    for each pass that is left, and one for the pass under way. -/
inductive Owed : (layer : Nat) → (Nat → Nat) → List ControlFrame → Prop
  | none : Owed 0 (fun _ => 0) []
  | one {layer i : Nat} {x : Nat → Nat} {b : BlockId} {v : Value} {kept : List Value} {L : List ControlFrame} :
      Owed layer x L → (p.chain c)[i]? = some b → (p.kindOf b).type.opens = true →
      kept.length = (if (p.kindOf b).repeats v then 1 else 0) → (∀ j ≥ i, x j = 0) →
      Owed (layer + 1) (Function.update x i (2 * passesLeft kept + 1)) (.body i v :: (framesOf kept ++ L))
  | stray {layer : Nat} {x : Nat → Nat} {v : Value} {L : List ControlFrame} :
      Owed layer x L → Owed layer x (.data v :: L)

variable {p c} in
theorem Owed.strays {layer : Nat} {x : Nat → Nat} {L : List ControlFrame} (h : Owed p c layer x L)
    (vs : List Value) : Owed p c layer x (framesOf vs ++ L) := by
  induction vs with
  | nil => exact h
  | cons v vs ih => exact .stray ih

end

/-- What a walk has ahead at each position: what the open bodies have, up to where it has come, and
    everything from there on. -/
def rank (i : Nat) (x : Nat → Nat) (j : Nat) : WithTop Nat := if j < i then WithTop.some (x j) else ⊤

/-- At one of the first `n` positions less is ahead, and before it just as much. -/
def Less (n : Nat) (y z : Nat → WithTop Nat) : Prop := ∃ i < n, (∀ j < i, y j = z j) ∧ y i < z i

theorem less_wf (n : Nat) : WellFounded (Less n) := by
  have hlex : WellFounded fun y z : Lex (Fin n → WithTop Nat) => y < z := wellFounded_lt
  refine (InvImage.wf (fun y : Nat → WithTop Nat => toLex fun i : Fin n => y i) hlex).mono fun y z h => ?_
  obtain ⟨i, hi, heq, hlt⟩ := h
  exact ⟨⟨i, hi⟩, fun j hj => heq j hj, hlt⟩

section

variable {i n d : Nat} {x : Nat → Nat} {y : Nat → WithTop Nat}

theorem rank_of_lt {j : Nat} (h : j < i) : rank i x j = WithTop.some (x j) := if_pos h

/-- Past a position less is ahead than before it. -/
theorem less_past (hi : i < n) : Less n (rank (i + 1) (Function.update x i d)) (rank i x) := by
  refine ⟨i, hi, fun j hj => ?_, ?_⟩
  · rw [rank_of_lt hj, rank_of_lt (Nat.lt_succ_of_lt hj), Function.update_of_ne (Nat.ne_of_lt hj)]
  · rw [rank_of_lt (Nat.lt_succ_self i), rank, if_neg (Nat.lt_irrefl i)]
    exact WithTop.coe_lt_top _

/-- Once less is ahead at a position, it does not matter what is ahead after it. -/
theorem less_within {q e : Nat} {z : Nat → WithTop Nat} (hi : i < n) (hq : i < q)
    (hz : ∀ j < i, z j = WithTop.some (x j)) (hd : z i = WithTop.some e) (hlt : e < d) : Less n z (rank q (Function.update x i d)) := by
  refine ⟨i, hi, fun j hj => ?_, ?_⟩
  · rw [hz j hj, rank_of_lt (Nat.lt_trans hj hq), Function.update_of_ne (Nat.ne_of_lt hj)]
  · rw [hd, rank_of_lt hq, Function.update_self]
    exact WithTop.coe_lt_coe.mpr hlt

/-- Nothing is ahead any more of a body that is closed. -/
theorem less_closed {q s : Nat} {x' : Nat → Nat} (hi : i < n) (hq : i < q) (hs : i < s) (hx : ∀ j ≤ i, x' j = x j)
    (h0 : x i = 0) : Less n (rank s x') (rank q (Function.update x i (d + 1))) := by
  refine less_within hi hq (fun j hj => ?_) (?_ : _ = WithTop.some 0) (Nat.succ_pos d)
  · rw [rank_of_lt (Nat.lt_trans hj hs), hx j (Nat.le_of_lt hj)]
  · rw [rank_of_lt hs, hx i (Nat.le_refl i), h0]

end

/-! ## Where a walk stands -/

section

variable (p : Program) (c : ChainId) (m₀ : Machine) (args : List Value)

/-- The open bodies have this ahead, on what the invocation found, and under what a block keeps. -/
structure Owing (x : Nat → Nat) (kept : List Value) (m : Machine) : Prop where
  underway : m₀.Underway args m
  cancelled : m.exec.cancelled = m₀.exec.cancelled
  stack : ∃ L, m.exec.control = framesOf kept ++ (L ++ m₀.exec.control) ∧ Owed p c m.exec.layer x L

inductive Ahead (cursor : Cursor) (m : Machine) : (Nat → WithTop Nat) → Prop
  | on {x : Nat → Nat} :
      cursor.bareNext = false → (∀ j ≥ cursor.position, x j = 0) → Owing p c m₀ args x [] m →
      Ahead cursor m (rank cursor.position x)
  /-- A repetition is to be entered for its next pass. -/
  | again {x : Nat → Nat} {v : Value} {b : BlockId} :
      cursor.bareNext = true → cursor.suppressed = none → (p.chain c)[cursor.position]? = some b →
      (p.kindOf b).repeats (.ofBool true) = true → (∀ j ≥ cursor.position, x j = 0) → Owing p c m₀ args x [v] m →
      Ahead cursor m (rank (cursor.position + 1) (Function.update x cursor.position (2 * passesLeft [v] + 2)))

/-- The walk is at a block that keeps some values, and whatever this leaves ahead, if it has no more
    passes left, is less than `y`. -/
structure Reached (x : Nat → Nat) (y : Nat → WithTop Nat) (i : Nat) (b : BlockId) (kept : List Value)
    (m : Machine) : Prop where
  block : (p.chain c)[i]? = some b
  owing : Owing p c m₀ args x kept m
  free : ∀ j ≥ i, x j = 0
  less : ∀ d, (kept ≠ [] → d ≤ 2 * passesLeft kept + 1) →
    Less (p.chain c).length (rank (i + 1) (Function.update x i d)) y

structure Stopped (error : Option Error) (m : Machine) : Prop where
  underway : m₀.Underway args m
  cancelled : m.exec.cancelled = m₀.exec.cancelled
  error : ∀ e ∈ error, m₀.Admits e

/-- What a turn comes to that began with `y` ahead. -/
def Progressed (y : Nat → WithTop Nat) : Turn → Machine → Prop
  | .next cursor => fun m => ∃ z, Less (p.chain c).length z y ∧ Ahead p c m₀ args cursor m z
  | .stop error => Stopped m₀ args error

/-- What is left of a turn once the body is closed that the block `b` at the cursor closes. -/
def Resumed (y : Nat → WithTop Nat) (b : BlockId) : Work.Closed → Machine → Prop
  | .over turn => Progressed p c m₀ args y turn
  | .onward cursor prior => fun m => ∃ x kept,
      Reached p c m₀ args x y cursor.position b kept m ∧
      (cursor.suppressed.isSome = true → kept = [] ∧ cursor.bareNext = false) ∧
      (cursor.suppressed.isSome = false →
        (p.kindOf b).Entered cursor.position True .opening (cursor.bareNext || prior.any (·.isOmitted)) prior kept)

end

section

variable {p : Program} {c : ChainId} {m₀ m k : Machine} {args : List Value} {x : Nat → Nat} {y : Nat → WithTop Nat}
  {i : Nat} {b : BlockId} {kept kept' : List Value} {cursor : Cursor}

theorem Owing.of_exec (h : Owing p c m₀ args x kept m) (hp : k.program = m.program) (he : k.exec = m.exec) :
    Owing p c m₀ args x kept k := by
  refine ⟨h.underway.of_eq hp (by rw [he]), ?_, ?_⟩
  · rw [he]
    exact h.cancelled
  · rw [he]
    exact h.stack

theorem Owing.released (h : Owing p c m₀ args x kept m) (v : Value) :
    Owing p c m₀ args x kept { m with storage := m.storage.release v } := h.of_exec rfl rfl

/-- What was kept is left behind. -/
theorem Owing.left (h : Owing p c m₀ args x kept m) : Owing p c m₀ args x [] m := by
  obtain ⟨L, hctl, hL⟩ := h.stack
  exact ⟨h.underway, h.cancelled, framesOf kept ++ L, by simpa [framesOf] using hctl, hL.strays kept⟩

theorem Owing.stopped (h : Owing p c m₀ args x kept m) {error : Option Error} (he : ∀ e ∈ error, m₀.Admits e) :
    Stopped m₀ args error m := ⟨h.underway, h.cancelled, he⟩

theorem Owing.finished (h : Owing p c m₀ args x kept m) : Stopped m₀ args none m :=
  h.stopped fun _ he => (by cases he)

namespace Ahead

theorem owing (h : Ahead p c m₀ args cursor m y) : ∃ x kept, Owing p c m₀ args x kept m := by
  cases h with
  | on _ _ hx => exact ⟨_, _, hx⟩
  | again _ _ _ _ _ hx => exact ⟨_, _, hx⟩

/-- No repetition is about to be entered where a body is to be closed. -/
theorem closing (h : Ahead p c m₀ args cursor m y) (hat : (p.chain c)[cursor.position]? = some b)
    (hcl : (p.kindOf b).type.closes = true) :
    ∃ x, y = rank cursor.position x ∧ cursor.bareNext = false ∧ (∀ j ≥ cursor.position, x j = 0) ∧
      Owing p c m₀ args x [] m := by
  cases h with
  | on hbare hfree hx => exact ⟨_, rfl, hbare, hfree, hx⟩
  | again _ _ hb' hrep _ _ =>
    obtain rfl := Option.some.inj (hb'.symm.trans hat)
    rw [Definition.control_of_repeats hrep] at hcl
    cases hcl

/-- A block that closes no body is about to be entered. -/
theorem entering (h : Ahead p c m₀ args cursor m y) (hat : (p.chain c)[cursor.position]? = some b)
    (hcl : (p.kindOf b).type.closes = false) : Resumed p c m₀ args y b (.onward cursor none) m := by
  have hlt := (List.getElem?_eq_some_iff.mp hat).1
  cases h with
  | @on x hbare hfree hx =>
    refine ⟨x, [], ⟨hat, hx, hfree, fun d _ => less_past hlt⟩, fun _ => ⟨rfl, hbare⟩, fun _ => ?_⟩
    rw [hbare]
    cases ht : (p.kindOf b).type <;> rw [ht] at hcl <;>
      first | exact .begins ht (Int.natCast_nonneg _) | exact .plain (by rw [ht]; rfl) | cases hcl
  | @again x v b' hbare hsup hb' hrep hfree hx =>
    obtain rfl := Option.some.inj (hb'.symm.trans hat)
    refine ⟨x, [v], ⟨hat, hx, hfree, fun d hd => ?_⟩, fun hsome => ?_, fun _ => ?_⟩
    · refine less_within (e := d) hlt (Nat.lt_succ_self _) (fun j hj => ?_) ?_ (Nat.lt_succ_of_le (hd (by simp)))
      · rw [rank_of_lt (Nat.lt_succ_of_lt hj), Function.update_of_ne (Nat.ne_of_lt hj)]
      · rw [rank_of_lt (Nat.lt_succ_self _), Function.update_self]
    · rw [hsup] at hsome
      cases hsome
    · rw [hbare]
      exact .resumes v hrep (Int.natCast_nonneg _)

end Ahead

/-- The block may keep a value, if it kept none. -/
theorem Reached.keeps (h : Reached p c m₀ args x y i b kept m) (hk : Owing p c m₀ args x kept' k)
    (hsuffix : kept <:+ kept') (hlen : kept'.length ≤ 1) : Reached p c m₀ args x y i b kept' k := by
  refine ⟨h.block, hk, h.free, fun d hd => h.less d fun hne => ?_⟩
  have hone : kept'.length ≤ kept.length := Nat.le_trans hlen (List.length_pos_iff.mpr hne)
  rw [hsuffix.eq_of_length_le hone] at hne ⊢
  exact hd hne

/-- Going on after a block that opens no body. -/
theorem Reached.passed (h : Reached p c m₀ args x y i b [] m) (hc : cursor.position = i + 1)
    (hb : cursor.bareNext = false) : Progressed p c m₀ args y (.next cursor) m := by
  have hrank : rank (i + 1) (Function.update x i 0) = rank cursor.position x := by
    rw [hc, ← h.free i (Nat.le_refl i), Function.update_eq_self]
  exact ⟨_, hrank ▸ h.less 0 fun hne => absurd rfl hne, .on hb (fun j hj => h.free j (by omega)) h.owing⟩

section

variable {opener d : Nat} (cursor : Cursor) (hop : opener < (p.chain c).length) (hfree : ∀ j ≥ opener, x j = 0)
  (hbelow : opener < cursor.position) (h : Owing p c m₀ args x [] m)
include hop hfree hbelow h

/-- Going on after a terminator that has closed a body. -/
theorem Owing.terminated (hb : cursor.bareNext = false) :
    Progressed p c m₀ args (rank cursor.position (Function.update x opener (d + 1)))
      (.next { cursor with position := cursor.position + 1 }) m := by
  refine ⟨_, less_closed (s := cursor.position + 1) hop hbelow (by omega) (fun _ _ => rfl) (hfree _ (Nat.le_refl _)),
    .on hb (fun j hj => hfree j ?_) h⟩
  dsimp only at hj
  omega

/-- Reaching a continuation that has closed a body. -/
theorem Owing.continued (hat : (p.chain c)[cursor.position]? = some b) :
    Reached p c m₀ args x (rank cursor.position (Function.update x opener (d + 1))) cursor.position b [] m := by
  refine ⟨hat, h, fun j hj => hfree j (by omega), fun d' _ => ?_⟩
  exact less_closed hop hbelow (by omega) (fun j hj => Function.update_of_ne (by omega) d' x)
    (hfree _ (Nat.le_refl _))

end

end

namespace Work

variable {p : Program} {R : Region p} {c : ChainId} {m₀ m k : Machine} {args : List Value} {x : Nat → Nat}
  {y : Nat → WithTop Nat} {b : BlockId} {kept : List Value}

/-! ## A turn of the walk -/

/-- Opening a body below a block. -/
theorem openBody_progresses {i : Nat} (h : Reached p c m₀ args x y i b kept m) (ho : (p.kindOf b).type.opens = true)
    {v : Value} (hk : kept.length = if (p.kindOf b).repeats v then 1 else 0) {cursor : Nat → Cursor}
    (hc : ∀ layer, (cursor layer).position = i + 1) (hb : ∀ layer, (cursor layer).bareNext = false) :
    (openBody (m₀.exec.calls.length + 1) i v).Meets
      (fun layer => Progressed p c m₀ args y (.next (cursor layer))) .over m := by
  have hu := h.owing.underway
  rw [meets_openBody hu.calls_length hu.calls_ne]
  split
  · obtain ⟨L, hctl, hL⟩ := h.owing.stack
    have hless := h.less (2 * passesLeft kept + 1) fun _ => Nat.le_refl _
    rw [← hc (m.exec.layer + 1)] at hless
    refine ⟨_, hless, .on (hb _) (fun j hj => ?_) ⟨hu.opened i v, h.owing.cancelled,
      .body i v :: (framesOf kept ++ L), ?_, ?_⟩⟩
    · rw [hc] at hj
      rw [Function.update_of_ne (Nat.ne_of_gt hj)]
      exact h.free j (Nat.le_of_succ_le hj)
    · show .body i v :: m.exec.control = _
      rw [hctl]
      simp [framesOf]
    · rw [hu.layer_inBody i v]
      exact .one hL h.block ho hk h.free
  · trivial

theorem leave_progresses (hp : m₀.program = p) {i : Nat} (h : Reached p c m₀ args x y i b kept m) {v : Value}
    (hk : kept.length = if (p.kindOf b).repeats v then 1 else 0) (cursor : Cursor) (hb : cursor.bareNext = false)
    (skip : Bool) :
    (leave c (m₀.exec.calls.length + 1) cursor i (i + 1) v skip).Meets (Progressed p c m₀ args y) .over m := by
  have hprog : m.program = p := h.owing.underway.program.trans hp
  simp only [leave, meets_bind, meets_blockAt, hprog, h.block, kindOf, meets_read]
  split
  · rename_i ho
    rw [meets_bind]
    exact openBody_progresses h ho hk (fun _ => rfl) fun _ => hb
  · rename_i ho
    rw [Definition.repeats_of_plain (by simpa using ho)] at hk
    obtain rfl := List.eq_nil_of_length_eq_zero hk
    simp only [meets_bind, meets_release, meets_pure]
    have hreleased : Reached p c m₀ args x y i b [] { m with storage := m.storage.release v } :=
      h.keeps (h.owing.released v) (List.suffix_refl _) (Nat.zero_le _)
    exact hreleased.passed rfl hb

theorem passOver_progresses {cursor : Cursor} (h : Reached p c m₀ args x y cursor.position b [] m)
    (hb : cursor.bareNext = false) :
    (passOver (m₀.exec.calls.length + 1) cursor (p.kindOf b).type).Meets (Progressed p c m₀ args y) .over m := by
  unfold passOver
  dsimp only
  split
  · rename_i ho
    rw [meets_bind]
    exact openBody_progresses h ho (v := .nothing) (by rw [Definition.repeats_nothing]; rfl) (fun _ => rfl)
      fun _ => hb
  · exact h.passed rfl hb

/-- Blocks of the region keep to the rules and end their evaluations, where no more than so many
    invocations can be begun inside each other. -/
structure Evaluates (R : Region p) (g : Nat) (eval : Nat → Evaluator) : Prop where
  well : ∀ n, EvaluatesWell R True False False (eval n)
  settling : ∀ n, Settling (eval n)
  ends : ∀ {b index mark bare prior kept K m}, R.blocks b →
    (p.kindOf b).Entered index True mark bare prior kept → m.Ready p False → m.exec.control = framesOf kept ++ K →
    m.Room g → Ends (fun n => eval n b index mark bare prior) m.Clear m

section

variable {g : Nat} {eval : Nat → Evaluator} (he : Evaluates R g eval) (hs : m₀.Scoped) (hp : m₀.program = p)
  (hg : m₀.Room (g + 1))
include he hs hp hg

/-- A block of the chain is evaluated, and keeps some values then. -/
theorem eval_owing (hb : R.blocks b) {index : Int} {mark : Marker} {bare : Bool} {prior : Option Value}
    (hent : (p.kindOf b).Entered index True mark bare prior kept) (h : Owing p c m₀ args x kept m) :
    Ends (fun n => eval n b index mark bare prior)
      (fun r k => ∃ kept', Owing p c m₀ args x kept' k ∧ (∀ e, r = .error e → m₀.Admits e) ∧
        ∀ v asked, r = .ok (v, asked) → (p.kindOf b).Leaves index kept v ⟨kept', asked.jump⟩ mark) m := by
  obtain ⟨L, hctl, hL⟩ := h.stack
  have hu := h.underway
  have hm : m.Ready p False := ⟨hu.calls_ne, hu.toScoped hs, hu.program.trans hp, False.elim⟩
  have hroom : m.Room g := by
    unfold Machine.Room at hg ⊢
    rw [hu.limits, hu.calls_length]
    omega
  refine (((he.ends hb hent hm hctl hroom).both fun n => he.well n hb hent (fun _ _ => False.elim) hm hctl).both
    fun n => he.settling n b index mark bare prior m hm.calls_ne hm.toScoped).weaken fun r k hk => ?_
  obtain ⟨⟨hclear, hev⟩, hcar, hv, ho⟩ := hk
  obtain ⟨kept', strays, hc, -, hok⟩ := hev.control
  refine ⟨kept', ⟨hu.carries hcar hv ho, hclear.cancelled.trans h.cancelled, framesOf strays ++ L, ?_, ?_⟩,
    fun e hr => (hclear.error e hr).of_eq h.cancelled, fun v asked hr => (hok v asked hr).2⟩
  · rw [hc, List.append_assoc]
  · rw [hcar.layer_eq]
    exact hL.strays strays

theorem enter_progresses {cursor : Cursor} (hb : R.blocks b)
    (h : Reached p c m₀ args x y cursor.position b kept m) {prior : Option Value}
    (hent : (p.kindOf b).Entered cursor.position True .opening (cursor.bareNext || prior.any (·.isOmitted)) prior kept)
    (t : BlockType) :
    Ends (fun n => enter (eval n) c (m₀.exec.calls.length + 1) cursor b t prior) (Progressed p c m₀ args y) m := by
  refine (eval_owing he hs hp hg hb hent h.owing).bind fun r k hk => ?_
  obtain ⟨kept', hk, herror, hok⟩ := hk
  cases r with
  | error e => exact .of_meets (hk.stopped fun _ hx => by cases hx; exact herror e rfl)
  | ok va =>
    obtain ⟨v, jump, skip⟩ := va
    obtain ⟨hjump, hlen, hsuffix⟩ := hok v _ rfl
    obtain rfl : jump = none := hjump
    refine .after (meets_isFinished fun finished => ?_)
    cases finished with
    | true => exact .of_meets (hk.released v).finished
    | false =>
      have hone : kept'.length ≤ 1 := by
        dsimp only at hlen
        split at hlen <;> omega
      exact .of_meets (leave_progresses hp (h.keeps hk hsuffix hone) hlen { cursor with bareNext := false } rfl skip)

theorem takeUp_progresses (hb : R.blocks b) {closed : Closed} (h : Resumed p c m₀ args y b closed m) :
    Ends (fun n => takeUp (eval n) c (m₀.exec.calls.length + 1) b (p.kindOf b).type closed)
      (Progressed p c m₀ args y) m := by
  rcases closed with turn | ⟨cursor, prior⟩
  · exact .of_meets h
  · obtain ⟨x, kept, hreached, hsup, hent⟩ := h
    simp only [takeUp]
    cases hsome : cursor.suppressed.isSome with
    | true =>
      obtain ⟨rfl, hbare⟩ := hsup hsome
      exact .of_meets (passOver_progresses hreached hbare)
    | false => exact enter_progresses he hs hp hg hb hreached (hent hsome) _

/-- The opener of a body is entered again that was closed by the block `b` at the cursor. -/
theorem reenter_progresses (hR : ∀ {b}, b ∈ p.chain c → R.blocks b)
    (hu : ∀ {b}, R.blocks b → (p.kindOf b).isUnbounded = false) (cursor : Cursor)
    (hat : (p.chain c)[cursor.position]? = some b) (hcl : (p.kindOf b).type.closes = true)
    (hsup : cursor.suppressed = none) (hbare : cursor.bareNext = false) {opener : Nat} {b' : BlockId} {v : Value}
    (hop : (p.chain c)[opener]? = some b') (hopens : (p.kindOf b').type.opens = true)
    (hk : kept.length = if (p.kindOf b').repeats v then 1 else 0) (hfree : ∀ j ≥ opener, x j = 0)
    (hbelow : opener < cursor.position) (h : Owing p c m₀ args x kept m) :
    Ends (fun n => reenter (eval n) c (m₀.exec.calls.length + 1) cursor (p.kindOf b).type opener v)
      (Resumed p c m₀ args (rank cursor.position (Function.update x opener (2 * passesLeft kept + 1))) b) m := by
  have hprog : ∀ {k : Machine}, m₀.Underway args k → k.program = p := fun hk => hk.program.trans hp
  have hlt : opener < (p.chain c).length := (List.getElem?_eq_some_iff.mp hop).1
  refine .after ?_
  rw [meets_blockAt, hprog h.underway, hop]
  refine (eval_owing he hs hp hg (hR (List.mem_of_getElem? hop)) (.closes v kept hopens (Int.natCast_nonneg _) hk)
    h).bind fun r k hk => ?_
  obtain ⟨kept', hk, herror, hok⟩ := hk
  cases r with
  | error e => exact .of_meets (hk.stopped fun _ hx => by cases hx; exact herror e rfl)
  | ok va =>
    obtain ⟨w, jump, skip⟩ := va
    refine .after (meets_isFinished fun finished => ?_)
    cases finished with
    | true => exact .of_meets (hk.released w).finished
    | false =>
      simp only [Bool.false_eq_true, if_false]
      rcases hok w _ rfl with ⟨hj, hnone⟩ | ⟨hj, -, hlen, hrep, hpass⟩
      · obtain rfl : jump = none := hj
        obtain rfl : kept' = [] := hnone
        refine .of_meets ?_
        dsimp only
        split
        · simp only [meets_bind, meets_release, meets_pure]
          exact (hk.released w).terminated cursor hlt hfree hbelow hbare
        · rename_i ht
          have ht := BlockType.continuation_of_closes hcl ht
          refine ⟨x, [], hk.continued cursor hlt hfree hbelow hat, fun hsome => ?_, fun _ => ?_⟩
          · rw [hsup] at hsome
            cases hsome
          · have hent : (p.kindOf b).Entered cursor.position True .opening w.isOmitted (some w) [] :=
              .continues w ht (Int.natCast_nonneg _)
            simpa [hbare] using hent
      · obtain rfl : jump = some opener := hj
        obtain ⟨homitted, hpasses⟩ := hpass (hu (hR (List.mem_of_getElem? hop)))
        rw [homitted] at hlen
        obtain ⟨z, rfl⟩ := List.length_eq_one_iff.mp hlen
        have hin : ¬ (k.program.chain c).length < opener := by
          rw [hprog hk.underway]
          omega
        refine .of_meets ?_
        simp only [meets_bind, meets_release, blocksOf, meets_read]
        rw [if_neg hin]
        refine ⟨_, less_within (e := 2 * passesLeft [z] + 2) hlt hbelow (fun j hj => ?_) ?_ ?_,
          .again homitted hsup hop (hrep homitted) hfree (hk.released w)⟩
        · rw [rank_of_lt (Nat.lt_succ_of_lt hj), Function.update_of_ne (Nat.ne_of_lt hj)]
        · rw [rank_of_lt (Nat.lt_succ_self _), Function.update_self]
        · dsimp only at hpasses
          omega

/-- A body was closed by the block `b` at the cursor. -/
theorem closeWith_progresses (hR : ∀ {b}, b ∈ p.chain c → R.blocks b)
    (hu : ∀ {b}, R.blocks b → (p.kindOf b).isUnbounded = false) {cursor : Cursor}
    (hat : (p.chain c)[cursor.position]? = some b) (hcl : (p.kindOf b).type.closes = true)
    (hbare : cursor.bareNext = false) {opener : Nat} {b' : BlockId} {v : Value} (layer : Nat)
    (hop : (p.chain c)[opener]? = some b') (hopens : (p.kindOf b').type.opens = true)
    (hk : kept.length = if (p.kindOf b').repeats v then 1 else 0) (hfree : ∀ j ≥ opener, x j = 0)
    (hbelow : opener < cursor.position) (h : Owing p c m₀ args x kept m) :
    Ends (fun n => closeWith (eval n) c (m₀.exec.calls.length + 1) (p.kindOf b).type (cursor.closedTo layer) opener v)
      (Resumed p c m₀ args (rank cursor.position (Function.update x opener (2 * passesLeft kept + 1))) b) m := by
  have hlt : opener < (p.chain c).length := (List.getElem?_eq_some_iff.mp hop).1
  -- Closing a body may end the suppression, and changes nothing else of the cursor.
  obtain ⟨s, hs'⟩ : ∃ s, cursor.closedTo layer = { cursor with suppressed := s } := by
    rcases Cursor.closedTo_cases cursor layer with hc | ⟨hc, -⟩
    · exact ⟨none, hc⟩
    · exact ⟨cursor.suppressed, hc⟩
  rw [hs']
  unfold closeWith
  cases hsome : s.isSome with
  | false =>
    obtain rfl : s = none := by simpa using hsome
    exact reenter_progresses he hs hp hg hR hu { cursor with suppressed := none } hat hcl rfl hbare hop hopens hk hfree
      hbelow h
  | true =>
    simp only [if_true]
    refine .of_meets ?_
    rw [meets_bind, meets_release]
    split
    · exact (h.left.released v).terminated { cursor with suppressed := s } hlt hfree hbelow hbare
    · refine ⟨x, [], (h.left.released v).continued cursor hlt hfree hbelow hat, fun _ => ⟨rfl, hbare⟩, fun hn => ?_⟩
      rw [hsome] at hn
      cases hn

/-- The innermost open body is closed by the block `b` at the cursor. -/
theorem closeBody_progresses (hR : ∀ {b}, b ∈ p.chain c → R.blocks b)
    (hu : ∀ {b}, R.blocks b → (p.kindOf b).isUnbounded = false) {cursor : Cursor}
    (hat : (p.chain c)[cursor.position]? = some b) (hcl : (p.kindOf b).type.closes = true)
    (hbare : cursor.bareNext = false) (hfree : ∀ j ≥ cursor.position, x j = 0) (h : Owing p c m₀ args x [] m) :
    Ends (fun n => closeBody (eval n) c (m₀.exec.calls.length + 1) cursor (p.kindOf b).type)
      (Resumed p c m₀ args (rank cursor.position x) b) m := by
  have hunder := h.underway
  simp only [closeBody_eq]
  refine .after ?_
  rw [meets_layerAt hunder.calls_length hunder.calls_ne]
  by_cases hzero : m.exec.layer = 0
  · simp only [if_pos hzero]
    by_cases ht : ((p.kindOf b).type == .continuation) = true
    · simp only [if_pos ht]
      have hreached : Reached p c m₀ args x (rank cursor.position x) cursor.position b [] m :=
        ⟨hat, h, hfree, fun d _ => less_past (List.getElem?_eq_some_iff.mp hat).1⟩
      exact .of_meets (hreached.passed rfl hbare)
    · simp only [if_neg ht]
      exact .of_meets trivial
  · simp only [if_neg hzero]
    refine .after ?_
    rw [meets_takeBody hunder.calls_length hunder.calls_ne]
    obtain ⟨L, hctl, hL⟩ := h.stack
    rw [hctl]
    have hclosed : ∀ rest, m₀.Underway args (m.outOfBody m.exec.layer rest) := hunder.closed hs
    have hout : ∀ rest, (m.outOfBody m.exec.layer rest).exec.layer = m.exec.layer - 1 := hunder.layer_outOfBody _
    generalize m.exec.layer = layer at hzero hL hclosed hout ⊢
    cases hL with
    | none => exact absurd rfl hzero
    | stray hL => trivial
    | @one below i x b' v kept L hL hop hopens hk hfree' =>
      have hbelow : i < cursor.position := by
        by_contra hle
        have h0 := hfree i (Nat.not_lt.mp hle)
        rw [Function.update_self] at h0
        cases h0
      refine closeWith_progresses he hs hp hg hR hu hat hcl hbare below hop hopens hk hfree' hbelow
        ⟨hclosed _, h.cancelled, L, ?_, ?_⟩
      · simp [Machine.outOfBody, Exec.withLayer, Exec.closed]
      · rw [hout]
        exact hL

/-- A turn of the walk ends with less ahead than before, or ends the walk. -/
theorem advance_progresses (hR : ∀ {b}, b ∈ p.chain c → R.blocks b)
    (hu : ∀ {b}, R.blocks b → (p.kindOf b).isUnbounded = false) {cursor : Cursor}
    (h : Ahead p c m₀ args cursor m y) :
    Ends (fun n => advance (eval n) c (m₀.exec.calls.length + 1) cursor) (Progressed p c m₀ args y) m := by
  obtain ⟨x, kept, hx⟩ := h.owing
  have hprog : m.program = p := hx.underway.program.trans hp
  simp only [advance_eq]
  refine .after ?_
  rw [blocksOf, meets_read, hprog]
  cases hat : (p.chain c)[cursor.position]? with
  | none => exact .of_meets hx.finished
  | some b =>
    refine .after ?_
    rw [meets_read]
    cases hcancelled : m.exec.cancelled with
    | some cause =>
      refine .of_meets (hx.stopped fun e he => ?_)
      cases he
      intro _
      rw [← hx.cancelled, hcancelled]
      rfl
    | none =>
      refine .after ?_
      rw [kindOf, meets_read, hprog]
      have hb : R.blocks b := hR (List.mem_of_getElem? hat)
      refine Ends.bind ?_ fun closed k hk => takeUp_progresses he hs hp hg hb hk
      by_cases hcl : (p.kindOf b).type.closes = true
      · simp only [if_pos hcl]
        obtain ⟨x, rfl, hbare, hfree, hx⟩ := h.closing hat hcl
        exact closeBody_progresses he hs hp hg hR hu hat hcl hbare hfree hx
      · simp only [if_neg hcl]
        exact .of_meets (h.entering hat (by simpa using hcl))

end

/-! ## Walks -/

theorem walk_ends {g : Nat} (he : Evaluates R g evaluate) (hs : m₀.Scoped) (hp : m₀.program = p)
    (hg : m₀.Room (g + 1)) (hR : ∀ {b}, b ∈ p.chain c → R.blocks b)
    (hu : ∀ {b}, R.blocks b → (p.kindOf b).isUnbounded = false) {cursor : Cursor}
    (h : Ahead p c m₀ args cursor m y) :
    Ends (fun n => walk n c (m₀.exec.calls.length + 1) cursor) (Stopped m₀ args) m := by
  induction y using (less_wf (p.chain c).length).induction generalizing cursor m with
  | _ y ih =>
    refine .succ ?_
    simp only [walk]
    refine (advance_progresses he hs hp hg hR hu h).bind fun turn k hk => ?_
    cases turn with
    | next cursor =>
      obtain ⟨z, hz, hk⟩ := hk
      exact ih z hz hk
    | stop error => exact .of_meets hk

/-! ## Invocations -/

/-- Invocations end where what runs the chain inside them does. -/
theorem invokeWith_ends {g : Nat} {run : Nat → ChainId → Nat → Work (Option Error)}
    (hrun : ∀ {c m₀ args}, R.chains c → m₀.Scoped → m₀.program = p → m₀.Room g →
      m₀.exec.calls.length < m₀.exec.limits.calls →
      Ends (fun n => run n c (m₀.exec.calls.length + 1)) (Stopped m₀ args)
        { m₀ with exec.calls := { args := args } :: m₀.exec.calls }) :
    InvocationsEnd R g fun n => invokeWith (run n) := by
  intro c args m hc hs hp hg
  simp only [invokeWith_eq]
  refine .after ?_
  rw [meets_read]
  refine .after ?_
  rw [meets_pushCall]
  split
  · rename_i hlt
    refine .after ?_
    rw [meets_read]
    refine (hrun hc hs hp hg hlt).bind fun error k hk => .of_meets ?_
    obtain ⟨f, hf, -⟩ := hk.underway.frame
    rw [meets_bind]
    unfold Meets
    rw [List.length_cons, ← hk.underway.calls_length, endCall_apply hf]
    cases error with
    | none => exact Machine.Clear.ok (k := ended m.exec.control.length k) hk.cancelled _
    | some e => exact ⟨hk.cancelled, fun e' he' => by cases he'; exact hk.error e rfl⟩
  · trivial

section

variable (hn : p.Nested) (hu : ∀ {b}, R.blocks b → (p.kindOf b).isUnbounded = false)

include hn in
/-- Blocks end their evaluations by the depth to which they nest others. -/
theorem evaluate_ends {g : Nat} (hi : InvocationsEnd R g invoke) : Evaluates R g evaluate where
  well n := (keeps_control True False (.inl trivial) n).1
  settling n := (keeps_scopes n).1
  ends {b index mark bare prior kept K m} hb hent hm hctl hg := by
    induction hd : p.depth b using Nat.strong_induction_on generalizing b index mark bare prior kept K m with
    | _ d ih =>
      refine .succ ?_
      simp only [evaluate]
      refine evaluateWith_ends (fun n => (keeps_control True False (.inl trivial) n).1) (fun n => (keeps_scopes n).1)
        (fun n => (keeps_control True False (.inl trivial) n).2.1) (fun n => (keeps_scopes n).2.1) hi hb
        (fun {b' m} hb' hm hg => ?_) hent hm hctl hg
      have hdepth := hn.depth_lt hb'
      obtain ⟨x, hx, s, hs, hpay⟩ := hb'
      exact ih _ (hd ▸ hdepth) (R.nested hb hx hs hpay) (.nested trivial) hm rfl hg rfl

include hn hu in
/-- Invocations end by how many can be begun inside each other. -/
theorem invoke_ends (g : Nat) : InvocationsEnd R g invoke := by
  induction g with
  | zero =>
    refine fun {c args m} hc hs hp hg => .succ ?_
    simp only [invoke]
    exact invokeWith_ends (R := R) (g := 0) (fun _ _ _ hg hlt => absurd hlt (Nat.not_lt.mpr hg)) hc hs hp hg
  | succ g ih =>
    refine fun {c args m} hc hs hp hg => .succ ?_
    simp only [invoke]
    refine invokeWith_ends (R := R) (g := g + 1) (fun hc hs hp hg _ => ?_) hc hs hp hg
    exact walk_ends (evaluate_ends hn ih) hs hp hg (R.listed hc) hu
      (.on rfl (fun _ _ => rfl) ⟨.begun _ _, rfl, [], rfl, .none⟩)

end

end Work

open Work

/-! ## Runs -/

/-- The run ended ok, failed or fatal, unless it was cancelled. -/
def Ending.Proper (cancelled : Bool) (e : Ending) : Prop :=
  e.status = .ok ∨ e.status = .failed ∨ e.status = .fatal ∨ e.status = .cancelled ∧ cancelled = true

/-- Entry chains are run one after the other, until one fails. -/
theorem runMains_terminates {p : Program} {R : Region p} (hn : p.Nested)
    (hu : ∀ {b}, R.blocks b → (p.kindOf b).isUnbounded = false) (cs : List ChainId)
    (hc : ∀ c ∈ cs, p.isMain c = true → R.chains c) (results : List Value) {m : Machine} (hs : m.Scoped)
    (hp : m.program = p) :
    ∃ e k, e.Proper m.exec.cancelled.isSome ∧ ∃ n, ∀ i ≥ n, runMains (invoke i) cs results m = .done e k := by
  induction cs generalizing results m with
  | nil => exact ⟨_, m, .inl rfl, 0, fun _ _ => rfl⟩
  | cons c cs ih =>
    rw [List.forall_mem_cons] at hc
    cases hmain : p.isMain c with
    | false =>
      have hskip : ∀ i, runMains (invoke i) (c :: cs) results m = runMains (invoke i) cs results m := fun i => by
        rw [runMains, bind_apply]
        show (if !m.program.isMain c then _ else _ : Work Ending) m = _
        rw [hp, hmain]
        rfl
      simp only [hskip]
      exact ih hc.2 results hs hp
    | true =>
      have hstep : ∀ i, runMains (invoke i) (c :: cs) results m = _ := fun i =>
        runMains_cons (hp ▸ hmain) cs results
      have hroom : m.Room m.exec.limits.calls := Nat.le_add_left _ _
      obtain ⟨o, ho, n, hends⟩ := (@invoke_ends _ R hn hu _ c [] m (hc.1 hmain) hs hp hroom).both fun n =>
        invoke_restores_frames n c [] hs
      dsimp only at hends
      cases o with
      | fault f k =>
        refine ⟨⟨.fatal, some f.toError, results⟩, k, .inr (.inr (.inl rfl)), n, fun i hi => ?_⟩
        rw [hstep, hends i hi]
        rfl
      | paused k resume => exact ho.1.elim
      | starved k => exact ho.elim
      | done r k =>
        obtain ⟨hclear, hres⟩ := ho
        cases r with
        | error e =>
          refine ⟨⟨if e.isCancellation then .cancelled else .failed, some e, results⟩, k, ?_, n, fun i hi => ?_⟩
          · unfold Ending.Proper
            cases he : e.isCancellation with
            | true => exact .inr (.inr (.inr ⟨rfl, hclear.error e rfl he⟩))
            | false => exact .inr (.inl rfl)
          · rw [hstep, hends i hi]
            rfl
        | ok v =>
          obtain ⟨e, l, hproper, n', hn'⟩ := ih hc.2 (results ++ [v]) (hres.toScoped hs) (hres.program.trans hp)
          refine ⟨e, l, hclear.cancelled ▸ hproper, max n n', fun i hi => ?_⟩
          rw [hstep, hends i (le_of_max_le_left hi)]
          exact hn' i (le_of_max_le_right hi)

/-- Linking procedures moves no block. -/
theorem Program.blocks_link (r : RegistryId) (cs : List ChainId) (p : Program) : (p.link r cs).blocks = p.blocks := by
  refine List.foldlRecOn (motive := fun q : Program => q.blocks = p.blocks) cs _ rfl fun q hq c _ => ?_
  rw [← hq, Program.linkChain]
  split
  · dsimp only
    split <;> rfl
  · rfl

/-- A run of a program of standard blocks, calls and placeholders without `loop` and `while` terminates,
    whatever the capacities are, however its chains nest, and however its procedures call each other: it
    ends ok, failed or fatal, unless it was cancelled before it began. No block contains itself, since a
    slot owns the block that it holds. -/
theorem worker_terminates (r : RegistryId) (cs : List ChainId) (cause : Option CancelCause) (m : Machine)
    (R : Region (m.program.link r cs)) (hn : m.program.Nested)
    (hu : ∀ b, R.blocks b → ((m.program.link r cs).kindOf b).isUnbounded = false)
    (hc : ∀ c ∈ cs, (m.program.link r cs).isMain c = true → R.chains c) :
    ∃ e k, (e.status = .ok ∨ e.status = .failed ∨ e.status = .fatal ∨ e.status = .cancelled ∧ cause.isSome = true) ∧
      ∃ n, ∀ i ≥ n, worker (invoke i) r cs cause m = .done e k := by
  have hlinked : (m.program.link r cs).Nested := hn.sub (.of_eq (Program.blocks_link r cs m.program))
  let k : Machine :=
    { m with
      exec := { m.exec.emptied with cancelled := cause }
      storage := m.storage.releaseAll m.exec.held
      program := m.program.link r cs }
  exact runMains_terminates (m := k) hlinked (hu _) cs hc [] rfl rfl

/-- In the program that prints a line twice only the printing block nests another, which nests none. -/
theorem twice_is_nested : twice.Nested where
  bounded {b b'} h := by
    obtain ⟨x, hx, s, hs, hp⟩ := h
    rw [twice_nested (Array.getElem?_eq_some_iff.mp hx).1 hx hs hp]
    decide
  acyclic b h := by
    obtain ⟨a, -, x, hx, s, hs, hp⟩ := Relation.TransGen.tail'_iff.mp h
    obtain rfl := twice_nested (Array.getElem?_eq_some_iff.mp hx).1 hx hs hp
    obtain ⟨c, ⟨x, hx, s, hs, hp⟩, -⟩ := Relation.TransGen.head'_iff.mp h
    cases hx
    rcases List.mem_pair.mp hs with rfl | rfl <;> cases hp

theorem worker_terminates_twice :
    twice.Nested ∧ (∀ b, twiceRegion.blocks b → (twice.kindOf b).isUnbounded = false) ∧
      ∃ e k, (e.status = .ok ∨ e.status = .failed ∨ e.status = .fatal ∨
          e.status = .cancelled ∧ (none : Option CancelCause).isSome = true) ∧
        ∃ n, ∀ i ≥ n, worker (invoke i) 0 [0] none twiceIdle = .done e k := by
  have hbounded : ∀ b, twiceRegion.blocks b → (twice.kindOf b).isUnbounded = false :=
    (by decide : ∀ b < 5, (twice.kindOf b).isUnbounded = false)
  exact ⟨twice_is_nested, hbounded, worker_terminates 0 [0] none twiceIdle twiceRegion twice_is_nested hbounded
    fun _ hc _ => List.mem_singleton.mp hc⟩

end BlockEngine
