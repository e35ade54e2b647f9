/-
  BlockEngine.Proofs.Library.Branching — an if group runs one branch.

  What is to become of an if group is said without the walk (`Chooses`): the conditions come to their
  truth values in order, each after the one before it did not hold; the body of the first that
  holds is run, or that of a branch without a condition; and the branches after it are not looked
  at. A branch that is not taken leaves no more than the record that its head was entered and
  closed. How conditions and bodies get on is left to them.

  Proved, in a tidy region, where no stack overflows:
  - `Tests.level`: a condition leaves the bodies, frames and bindings around it as they were.
  - `Runs.level`: so does a body that is run and closed.
  - `if_group_runs_one_branch`: the walk comes from the conditional to the block after the
    terminator, having done just that.
-/

import BlockEngine.Proofs.Library.Conditional

namespace BlockEngine

/-! ## Groups -/

def Tail.branches (i : Nat) : Tail → List Branch
  | .stop _ => []
  | .more b body tail => ⟨b, i, body⟩ :: tail.branches (i + 1 + body.size)

inductive Tail.Ladder (p : Program) : Tail → Prop
  | stop (b : BlockId) : Ladder p (.stop b)
  | elseIf {b : BlockId} {body : Forest} {tail : Tail} :
      (p.kindOf b).Is "else_if" → tail.Ladder p → Ladder p (.more b body tail)
  | orElse {b b' : BlockId} {body : Forest} : (p.kindOf b).Is "else" → Ladder p (.more b body (.stop b'))

theorem Tail.Ladder.more {p : Program} {b : BlockId} {body : Forest} {tail : Tail}
    (h : (Tail.more b body tail).Ladder p) :
    ∃ conditional native, (p.kindOf b).Heads (some (.ofBool false)) conditional native ∧
      (conditional = false → ∀ i, tail.branches i = []) ∧ tail.Ladder p := by
  cases h with
  | elseIf hb hladder => exact ⟨_, _, .elseIf hb, nofun, hladder⟩
  | orElse hb => exact ⟨_, _, .orElse hb, fun _ _ => rfl, .stop _⟩

structure Program.IfGroup (p : Program) (c : ChainId) (i : Nat) (b : BlockId) (body : Forest) (tail : Tail) : Prop where
  stands : StandAt (p.chain c) i (b :: (body.blocks ++ tail.blocks))
  typed_body : body.Typed fun b => (p.kindOf b).type
  typed_tail : tail.Typed fun b => (p.kindOf b).type
  head : (p.kindOf b).Is "if"
  ladder : tail.Ladder p

/-! ## What becomes of a group -/

namespace Machine

/-- The machine once branches were skipped. Their heads are told so by the value that leaves arguments
    out. -/
def passing : List Branch → Machine → Machine
  | [], m => m
  | x :: rest, m => ((m.noting (x.call .opening [.omitted])).noting (x.call .closing [.omitted])).passing rest

end Machine

namespace Work

section

variable (p : Program) (c : ChainId) (depth : Nat)

/-- The condition of a branch is evaluated, after the value of the branch before it, and comes to a truth
    value. -/
inductive Tests (x : Branch) (prior : Option Value) (m : Machine) : Bool → Machine → Prop
  | intro {payload : Payload} {v : Value} {k : Machine} : p.condition x.head = some payload →
      m.exec.operands.length + (prior.toList.length + 1) < m.exec.limits.operands →
      ComesTo (m.holding (.ofMarker .opening :: prior.toList)) payload v k → k.Going →
      Tests x prior m v.toBool
        (Machine.noting (x.call .opening (prior.toList ++ [k.storage.view v]))
          { k with exec.operands := m.exec.operands, storage := k.storage.release v })

/-- The body of a branch is opened, run from its first block to its end, and closed. -/
inductive Runs (x : Branch) (m : Machine) : Machine → Prop
  | intro {y : Cursor} {k : Machine} :
      Passage (Turns c depth) x.start x.stop { position := x.start } (m.inBody x.position (.ofBool true)) y k →
      y.position = x.stop → k.Going → Runs x m (k.bodyClosed.noting (x.call .closing [.ofBool true]))

/-- What becomes of branches of which the one before, if any, yielded `prior` and was not taken. -/
inductive Chooses : List Branch → Option Value → Machine → Machine → Prop
  | none (prior : Option Value) (m : Machine) : Chooses [] prior m m
  /-- The condition does not hold: the next branch is tried. -/
  | next {x : Branch} {rest : List Branch} {prior : Option Value} {m k final : Machine} :
      Tests p x prior m false k →
      Chooses rest (some (.ofBool false)) (k.noting (x.call .closing [.ofBool false])) final →
      Chooses (x :: rest) prior m final
  /-- The condition holds: the body is run and the rest is skipped. -/
  | chosen {x : Branch} {rest : List Branch} {prior : Option Value} {m k l : Machine} :
      Tests p x prior m true k → Runs c depth x k l → Chooses (x :: rest) prior m (l.passing rest)
  /-- There is no condition. -/
  | otherwise {x : Branch} {rest : List Branch} {prior : Option Value} {m l : Machine} :
      p.condition x.head = Option.none → Runs c depth x (m.noting (x.call .opening prior.toList)) l →
      Chooses (x :: rest) prior m (l.passing rest)

end

end Work

theorem Machine.Level.passing {m k : Machine} (h : m.Level k) (bs : List Branch) : m.Level (k.passing bs) := by
  induction bs generalizing k with
  | nil => exact h
  | cons x rest ih => exact ih ((h.noting _).noting _)

namespace Work

open Filter (atTop)

variable {p : Program} {R : Region p} {c : ChainId} {m k : Machine} {x : Branch} {prior : Option Value}

/-! ## Conditions -/

theorem Tests.room {holds : Bool} (h : Tests p x prior m holds k) :
    m.exec.operands.length + (prior.toList.length + 1) < m.exec.limits.operands := by
  obtain ⟨-, hroom, -, -⟩ := h
  exact hroom

theorem Tests.condition {holds : Bool} (h : Tests p x prior m holds k) : (p.condition x.head).isSome = true := by
  obtain ⟨hpayload, -⟩ := h
  rw [hpayload]
  rfl

section

variable {native : Native} {holds : Bool} (hb : R.blocks x.head) (hh : (p.kindOf x.head).Heads prior true native)
  (hm : m.Works p) (h : Tests p x prior m holds k)
include hb hh hm h

/-- The head yields whether its condition holds. -/
theorem Tests.gives : Gives x.head x.position .opening false prior m (.ofBool holds) (!holds) k := by
  obtain ⟨hpayload, hroom, hcomes, -⟩ := h
  obtain ⟨y, hy⟩ := R.placed hb
  obtain rfl := hm.program
  exact gives_condition hy.block hh.role_eq hh.opens (fun v hv => hh.prior_eq v hv ▸ trivial) hh.native_eq hpayload
    (slots_head hy hh) hy.typed hroom (hh.tests rfl) hm.calls hm.scopes hcomes

/-- A condition leaves the frames and the bindings around it as they were. -/
theorem Tests.level (ht : R.Tidy) : m.Level k := by
  obtain ⟨hpayload, -, hcomes, hgo⟩ := h
  obtain ⟨y, hy⟩ := R.placed hb
  exact (hcomes.level ht hb hy.block (slots_head hy hh) hpayload hm hgo _).noting _

end

/-! ## Branches -/

/-- A branch stands in a chain, with a head of some kind, and with a block after its body that closes it. -/
structure InPlace (p : Program) (c : ChainId) (prior : Option Value) (conditional : Bool) (native : Native)
    (x : Branch) : Prop where
  opener : (p.chain c)[x.position]? = some x.head
  heads : (p.kindOf x.head).Heads prior conditional native
  stands : StandAt (p.chain c) x.start x.body.blocks
  typed : x.body.Typed fun b => (p.kindOf b).type
  closer : ∃ b, (p.chain c)[x.stop]? = some b ∧ (p.kindOf b).type.closes = true

theorem InPlace.toStands {conditional : Bool} {native : Native} (h : InPlace p c prior conditional native x) :
    x.Stands p c := ⟨h.opener, h.heads.opens, h.stands, h.typed, h.closer⟩

/-- The invocation is at work on the program, with room for the operands of heads and for some frames. -/
structure HasRoom (p : Program) (depth room : Nat) (m : Machine) : Prop where
  works : m.Works p
  going : m.Going
  depth : m.exec.calls.length = depth
  operands : m.exec.operands.length + 1 < m.exec.limits.operands
  control : m.exec.control.length + room ≤ m.exec.limits.control

def Passes (c : ChainId) (depth : Nat) (x : Branch) (prior : Option Value) (m : Machine) (w : Value) (l : Machine) :
    Prop :=
  ∃ y k z k', (∀ t, ∀ᶠ n in atTop,
      enter (evaluate n) c depth { position := x.position } x.head t prior m = .done (.next y) k) ∧
    Passage (Turns c depth) x.start x.stop y k z k' ∧ z.position = x.stop ∧ AtEnd c depth z k' w l

theorem HasRoom.mono {depth room room' : Nat} (h : HasRoom p depth room m) (hle : room' ≤ room) :
    HasRoom p depth room' m :=
  ⟨h.works, h.going, h.depth, h.operands, (Nat.add_le_add_left hle _).trans h.control⟩

theorem HasRoom.of_level {depth room : Nat} (h : HasRoom p depth room m) (hl : m.Level k) : HasRoom p depth room k :=
  ⟨h.works.carries hl.carries, hl.going, hl.carries.frames.length_eq.trans h.depth,
    by rw [hl.operands, hl.carries.limits]; exact h.operands,
    by rw [hl.control, hl.carries.limits]; exact h.control⟩

/-- A body that is run stays in its own lines, and is closed then. -/
theorem Runs.ran {depth : Nat} {l : Machine} (ht : R.Tidy) (hc : R.chains c) (hx : x.Stands p c)
    (hk : k.Works p) (hd : k.exec.calls.length = depth) (h : Runs c depth x k l) :
    ∃ k', Passage (Turns c depth) x.start x.stop { position := x.start } (k.inBody x.position (.ofBool true))
        { position := x.stop } k' ∧
      Ran c depth x (.ofBool true) k { position := x.stop } k' ∧ k'.Going ∧
      l = k'.bodyClosed.noting (x.call .closing [.ofBool true]) := by
  obtain ⟨hpassage, hy, hgo⟩ := h
  have hran := ran_of_passage ht hc hk hd hx hpassage hy hgo
  obtain rfl := hran.cursor
  exact ⟨_, hpassage, hran, hgo, rfl⟩

section

variable {conditional : Bool} {native : Native} {depth room : Nat} {v w : Value} {l : Machine}
  (hx : InPlace p c prior conditional native x)
include hx

/-- A head that is closed is called with what it yielded. -/
theorem gives_closing (hb : R.blocks x.head) (hm : HasRoom p depth room m) (hv : v.IsScalar)
    (hgives : native [.ofMarker .closing, v] = .gives w false) :
    Gives x.head x.position .closing true (some v) m w false (m.noting (x.call .closing [v])) := by
  obtain ⟨y, hy⟩ := R.placed hb
  obtain rfl := hm.works.program
  exact gives_bare hy.block hx.heads.role_eq hx.heads.opens (fun u hu => Option.some.inj hu ▸ hv) hx.heads.native_eq
    (.inl rfl) hm.operands hgives nofun

/-- The head has its body skipped. -/
theorem passes_unopened {before : Option Value} {bare : Bool} (hb : R.blocks x.head)
    (hm : HasRoom p depth (x.body.depth + 1) m) (hl : m.Level k) (hv : v.IsScalar) (hw : w.IsScalar)
    (hbare : before.any (·.isOmitted) = bare) (hg : Gives x.head x.position .opening bare before m v true k)
    (hgives : native [.ofMarker .closing, v] = .gives w false) :
    Passes c depth x before m w (k.noting (x.call .closing [v])) := by
  have hk := hm.of_level hl
  obtain ⟨hpassage, hclosing⟩ := atEnd_skipped hk.works hk.going hk.depth hx.stands hx.typed hx.opener hk.control
    (gives_closing hx hb hk hv hgives) hw ((Machine.Level.refl hk.going).noting _)
  have hroom := hk.control
  exact ⟨_, _, _, _, enter_gives hx.opener hx.heads.opens hbare hg hk.depth hk.works hk.going (by omega), hpassage, rfl,
    hclosing⟩

/-- The head has its body run. -/
theorem passes_run (ht : R.Tidy) (hc : R.chains c) (hm : HasRoom p depth (x.body.depth + 1) m) (hl : m.Level k)
    (hw : w.IsScalar) (hg : Gives x.head x.position .opening false prior m (.ofBool true) false k)
    (hgives : native [.ofMarker .closing, .ofBool true] = .gives w false) (hruns : Runs c depth x k l) :
    Passes c depth x prior m w l ∧ k.Level l := by
  have hk := hm.of_level hl
  have hb : R.blocks x.head := R.listed hc (List.mem_of_getElem? hx.opener)
  obtain ⟨k', hpassage, hran, hgo, rfl⟩ := hruns.ran ht hc hx.toStands hk.works hk.depth
  have hclosed := hk.of_level hran.closed
  have hlevel := hran.closed.noting (x.call .closing [.ofBool true])
  have hroom := hk.control
  refine ⟨⟨_, _, _, _, enter_gives hx.opener hx.heads.opens hx.heads.any_isOmitted hg hk.depth hk.works hk.going
    (by omega), hpassage, rfl, ?_⟩, hlevel⟩
  have hbody := gives_closing (v := .ofBool true) hx hb hclosed trivial hgives
  have hworks := hk.works.program ▸ hran.works
  refine .of_gives (i := x.position) hworks hran.depth hgo.cancelled hran.layer hran.control
    hx.opener rfl hw (hlevel.carries.frames.length_eq.trans hk.depth) (hk.works.carries hlevel.carries) hlevel.going ?_
  rwa [← hran.bodyClosed_eq]

end

section

variable {native : Native} {depth room : Nat} {l : Machine} (ht : R.Tidy) (hc : R.chains c)
include ht hc

/-- Its condition does not hold. -/
theorem passes_refused (hx : InPlace p c prior true native x) (hm : HasRoom p depth (x.body.depth + 1) m)
    (htests : Tests p x prior m false k) :
    Passes c depth x prior m (.ofBool false) (k.noting (x.call .closing [.ofBool false])) ∧
      m.Level (k.noting (x.call .closing [.ofBool false])) := by
  have hb : R.blocks x.head := R.listed hc (List.mem_of_getElem? hx.opener)
  have hl := htests.level hb hx.heads hm.works ht
  have hg := htests.gives hb hx.heads hm.works
  exact ⟨passes_unopened hx hb hm hl trivial trivial hx.heads.any_isOmitted hg (hx.heads.refused rfl), hl.noting _⟩

/-- Its condition holds. -/
theorem passes_taken (hx : InPlace p c prior true native x) (hm : HasRoom p depth (x.body.depth + 1) m)
    (htests : Tests p x prior m true k) (hruns : Runs c depth x k l) :
    Passes c depth x prior m .omitted l ∧ m.Level l := by
  have hb : R.blocks x.head := R.listed hc (List.mem_of_getElem? hx.opener)
  have hl := htests.level hb hx.heads hm.works ht
  have hg := htests.gives hb hx.heads hm.works
  obtain ⟨hpasses, hlevel⟩ := passes_run (w := .omitted) hx ht hc hm hl trivial hg hx.heads.taken hruns
  exact ⟨hpasses, hl.trans hlevel⟩

/-- It has no condition. -/
theorem passes_otherwise (hx : InPlace p c prior false native x) (hm : HasRoom p depth (x.body.depth + 1) m)
    (hruns : Runs c depth x (m.noting (x.call .opening prior.toList)) l) :
    Passes c depth x prior m .nothing l ∧ m.Level l := by
  have hb : R.blocks x.head := R.listed hc (List.mem_of_getElem? hx.opener)
  have hl := (Machine.Level.refl hm.going).noting (x.call .opening prior.toList)
  obtain ⟨y, hy⟩ := R.placed hb
  have hg : Gives x.head x.position .opening false prior m (.ofBool true) false
      (m.noting (x.call .opening prior.toList)) := by
    obtain rfl := hm.works.program
    have hnone := List.eq_nil_of_length_eq_zero (slots_head hy hx.heads)
    refine gives_bare hy.block hx.heads.role_eq hx.heads.opens (fun v hv => hx.heads.prior_eq v hv ▸ trivial)
      hx.heads.native_eq (.inr hnone) ?_ (hx.heads.takes rfl) nofun
    have hroom := hm.operands
    have hprior : prior.toList.length ≤ 1 := by cases prior <;> simp
    omega
  obtain ⟨hpasses, hlevel⟩ := passes_run (w := .nothing) hx ht hc hm hl trivial hg hx.heads.taken hruns
  exact ⟨hpasses, hl.trans hlevel⟩

omit ht in
/-- It comes after the one that was chosen. -/
theorem passes_skipped {conditional : Bool} (hx : InPlace p c prior conditional native x) (hprior : prior ≠ none)
    (hm : HasRoom p depth (x.body.depth + 1) m) :
    Passes c depth x (some .omitted) m .omitted (m.passing [x]) := by
  have hb : R.blocks x.head := R.listed hc (List.mem_of_getElem? hx.opener)
  obtain ⟨y, hy⟩ := R.placed hb
  have hg : Gives x.head x.position .opening true (some .omitted) m .omitted true
      (m.noting (x.call .opening [.omitted])) := by
    obtain rfl := hm.works.program
    exact gives_bare hy.block hx.heads.role_eq hx.heads.opens (fun v hv => Option.some.inj hv ▸ trivial)
      hx.heads.native_eq (.inl rfl) hm.operands (hx.heads.skips hprior .opening) fun _ => rfl
  exact passes_unopened hx hb hm ((Machine.Level.refl hm.going).noting _) trivial trivial rfl hg
    (hx.heads.skips hprior .closing)

end

/-! ## Groups -/

theorem inPlace_of_stands {b : BlockId} {body : Forest} {tail : Tail} {i : Nat} {conditional : Bool} {native : Native}
    (h : StandAt (p.chain c) i (b :: (body.blocks ++ tail.blocks))) (hbody : body.Typed fun b => (p.kindOf b).type)
    (htail : tail.Typed fun b => (p.kindOf b).type) (hh : (p.kindOf b).Heads prior conditional native) :
    InPlace p c prior conditional native ⟨b, i, body⟩ :=
  ⟨h.head, hh, h.tail.left, hbody, tail.first, h.tail.right.first, Tail.first_closes htail⟩

/-- What is left to do after a branch, whose head yielded a value when it was closed. -/
inductive Remains (p : Program) (c : ChainId) (depth : Nat) (rest : List Branch) (final : Machine) :
    Value → Machine → Prop
  | tried {l : Machine} : Chooses p c depth rest (some (.ofBool false)) l final →
      Remains p c depth rest final (.ofBool false) l
  | skipped {l : Machine} : final = l.passing rest → Remains p c depth rest final .omitted l
  | done {l : Machine} : rest = [] → final = l → Remains p c depth rest final .nothing l

section

variable {depth : Nat} {native : Native} {conditional : Bool} {rest : List Branch} {final : Machine}

theorem condition_isSome {y : Block} (hy : p.Placed x.head y) (hh : (p.kindOf x.head).Heads prior conditional native) :
    (p.condition x.head).isSome = conditional := by
  have hslots := slots_head hy hh
  rw [Program.condition, hy.block]
  show (y.slots[0]? >>= fun s => some s.payload).isSome = conditional
  cases conditional with
  | true =>
    obtain ⟨s, hs⟩ := List.length_eq_one_iff.mp hslots
    rw [hs]
    rfl
  | false =>
    rw [List.eq_nil_of_length_eq_zero hslots]
    rfl

/-- The first of some branches, as it is chosen or not. -/
theorem Chooses.passes (ht : R.Tidy) (hc : R.chains c) (hx : InPlace p c prior conditional native x)
    (hm : HasRoom p depth (x.body.depth + 1) m) (hlast : conditional = false → rest = [])
    (h : Chooses p c depth (x :: rest) prior m final) :
    ∃ w l, Passes c depth x prior m w l ∧ m.Level l ∧ Remains p c depth rest final w l := by
  obtain ⟨y, hy⟩ := R.placed (R.listed hc (List.mem_of_getElem? hx.opener))
  have hsome := condition_isSome hy hx.heads
  cases h with
  | next htests hrest =>
    obtain rfl : conditional = true := by
      rw [← hsome, htests.condition]
    obtain ⟨hpasses, hl⟩ := passes_refused ht hc hx hm htests
    exact ⟨_, _, hpasses, hl, .tried hrest⟩
  | chosen htests hruns =>
    obtain rfl : conditional = true := by
      rw [← hsome, htests.condition]
    obtain ⟨hpasses, hl⟩ := passes_taken ht hc hx hm htests hruns
    exact ⟨_, _, hpasses, hl, .skipped rfl⟩
  | otherwise hnone hruns =>
    obtain rfl : conditional = false := by
      rw [← hsome, hnone]
      rfl
    obtain rfl := hlast rfl
    obtain ⟨hpasses, hl⟩ := passes_otherwise ht hc hx hm hruns
    exact ⟨_, _, hpasses, hl, .done rfl rfl⟩

/-- There is room for the operands of the first condition. -/
theorem Chooses.room (hc : R.chains c) (hx : InPlace p c prior true native x)
    (h : Chooses p c depth (x :: rest) prior m final) :
    m.exec.operands.length + (prior.toList.length + 1) < m.exec.limits.operands := by
  cases h with
  | next htests => exact htests.room
  | chosen htests => exact htests.room
  | otherwise hnone =>
    obtain ⟨y, hy⟩ := R.placed (R.listed hc (List.mem_of_getElem? hx.opener))
    have hsome := condition_isSome hy hx.heads
    rw [hnone] at hsome
    cases hsome

/-- The walk enters a branch, and then comes to the end of the group as it does from what closes the branch. -/
theorem Passes.passage {hi : Nat} {cursor y : Cursor} {w : Value} {l : Machine} (hpasses : Passes c depth x prior k w l)
    (hj : cursor.position = x.position) (hhi : x.stop < hi)
    (hturn : ∀ y l, (∀ t, ∀ᶠ n in atTop,
      enter (evaluate n) c depth { position := x.position } x.head t prior k = .done (.next y) l) →
      Turns c depth cursor m y l)
    (hrest : ∀ z k', z.position = x.stop → AtEnd c depth z k' w l →
      Passage (Turns c depth) x.stop hi z k' y final) :
    Passage (Turns c depth) x.position hi cursor m y final := by
  obtain ⟨y', k', z, k'', henter, hpassage, hz, hclosing⟩ := hpasses
  have hstart : x.position ≤ x.start := Nat.le_succ _
  have hstop : x.start ≤ x.stop := Nat.le_add_right _ _
  refine .step (Nat.le_of_eq hj.symm) (by omega) (hturn y' k' henter) ?_
  exact (hpassage.widen hstart hhi.le).trans ((hrest z k'' hz hclosing).widen (hstart.trans hstop) (Nat.le_refl _))

variable {cursor : Cursor} {v : Value} {j : Nat}

/-- After the last branch comes the terminator. -/
theorem passage_stop {b : BlockId} (hj : cursor.position = j) (hat : (p.chain c)[j]? = some b)
    (hb : (p.kindOf b).type = .terminator) (hp : k.program = p) (hgo : k.Going) (h : AtEnd c depth cursor m v k)
    (hr : Remains p c depth [] final v k) :
    Passage (Turns c depth) j (j + 1) cursor m { position := j + 1 } final ∧ k.Level final := by
  subst hj
  have hfinal : final = k := by
    cases hr with
    | tried h => cases h; rfl
    | skipped h => exact h
    | done _ h => exact h
  subst hfinal
  exact ⟨.one (Nat.le_refl _) (Nat.lt_succ_self _) (h.stop hp hat hb), .refl hgo⟩

/-- After another branch comes the next. -/
theorem passage_more {hi : Nat} {y : Cursor} (ht : R.Tidy) (hc : R.chains c)
    (hx : InPlace p c (some (.ofBool false)) conditional native x) (htype : (p.kindOf x.head).type = .continuation)
    (hj : cursor.position = x.position) (hhi : x.stop < hi) (hm : HasRoom p depth (x.body.depth + 1) k)
    (hlast : conditional = false → rest = []) (h : AtEnd c depth cursor m v k)
    (hr : Remains p c depth (x :: rest) final v k)
    (hrest : ∀ z k' w l, z.position = x.stop → k.Level l → AtEnd c depth z k' w l →
      Remains p c depth rest final w l → Passage (Turns c depth) x.stop hi z k' y final ∧ l.Level final) :
    Passage (Turns c depth) x.position hi cursor m y final ∧ k.Level final := by
  have hpasses : ∃ w l, Passes c depth x (some v) k w l ∧ k.Level l ∧ Remains p c depth rest final w l := by
    cases hr with
    | tried h => exact h.passes ht hc hx hm hlast
    | skipped h =>
      exact ⟨_, _, passes_skipped hc hx (Option.some_ne_none _) hm, (Machine.Level.refl hm.going).passing [x],
        .skipped h⟩
    | done hnil => exact absurd hnil (List.cons_ne_nil _ _)
  obtain ⟨w, l, hpasses, hl, hr⟩ := hpasses
  refine ⟨hpasses.passage hj hhi (fun y l henter => ?_) fun z k' hz hclosing =>
    (hrest z k' w l hz hl hclosing hr).1, ?_⟩
  · exact h.more hm.works.program (hj ▸ hx.opener) htype (hj ▸ henter .continuation)
  · obtain ⟨_, k', z, k'', -, -, hz, hclosing⟩ := hpasses
    exact hl.trans (hrest z k'' w l hz hl hclosing hr).2

/-- From what closes the first branch the walk comes to the end of the group. -/
theorem passage_tail (ht : R.Tidy) (hc : R.chains c) (tail : Tail) {j : Nat} (hladder : tail.Ladder p)
    (hstands : StandAt (p.chain c) j tail.blocks) (htyped : tail.Typed fun b => (p.kindOf b).type) {cursor : Cursor}
    {m k : Machine} {v : Value} (hk : HasRoom p depth tail.depth k) (hj : cursor.position = j)
    (h : AtEnd c depth cursor m v k) (hr : Remains p c depth (tail.branches j) final v k) :
    Passage (Turns c depth) j (j + tail.size) cursor m { position := j + tail.size } final ∧ k.Level final := by
  cases tail with
  | stop b => exact passage_stop hj hstands.head htyped hk.works.program hk.going h hr
  | more b body tail =>
    rw [Tail.Typed] at htyped
    rw [Tail.branches] at hr
    rw [Tail.depth] at hk
    obtain ⟨conditional, native, hheads, hlast, hladder⟩ := hladder.more
    have hx := inPlace_of_stands hstands htyped.2.1 htyped.2.2 hheads
    have hroom := hk.mono (Nat.le_max_left _ _)
    have hsize := tail.size_pos
    rw [Tail.size_more, ← Nat.add_assoc, ← Nat.add_assoc]
    refine passage_more ht hc hx htyped.1 hj (by show j + 1 + body.size < _; omega) hroom (fun hn => hlast hn _) h hr
      fun z k' w l hz hl hclosing hr => ?_
    exact passage_tail ht hc tail hladder hstands.tail.right htyped.2.2
      ((hk.mono (Nat.le_max_right _ _)).of_level hl) hz hclosing hr

/-- An if group runs one branch. From its conditional the walk comes to the block after its terminator, and in
    no other way: it evaluates the conditions in order up to the first that holds, runs the body of that
    branch, or of the one without a condition where none holds, and runs nothing else. The frames of open
    bodies and the bindings are then what they were, but for what conditions bound. A body that is skipped is
    walked for its frames, so that these, too, must not overflow the control stack. -/
theorem if_group_runs_one_branch (ht : R.Tidy) (hc : R.chains c) {i : Nat} {b : BlockId} {body : Forest} {tail : Tail}
    (hg : p.IfGroup c i b body tail) (hm : m.Works p) (hgo : m.Going)
    (hroom : m.exec.control.length + max (body.depth + 1) tail.depth ≤ m.exec.limits.control)
    (h : Chooses p c m.exec.calls.length (⟨b, i, body⟩ :: tail.branches (i + 1 + body.size)) none m final) :
    let j := i + 1 + body.size + tail.size
    Passage (Turns c m.exec.calls.length) i j { position := i } m { position := j } final ∧
      (∀ y k, Passage (Turns c m.exec.calls.length) i j { position := i } m y k → y.position = j →
        y = { position := j } ∧ k = final) ∧
      (∃ turns, ∀ᶠ n in atTop, walk (n + turns) c m.exec.calls.length { position := i } m =
        walk n c m.exec.calls.length { position := j } final) ∧
      final.exec.layer = m.exec.layer ∧ m.Level final := by
  intro j
  have hx := inPlace_of_stands hg.stands hg.typed_body hg.typed_tail (.first hg.head)
  have hspace : HasRoom p m.exec.calls.length (max (body.depth + 1) tail.depth) m :=
    ⟨hm, hgo, rfl, h.room hc hx, hroom⟩
  have hsize := tail.size_pos
  obtain ⟨w, l, hpasses, hl, hr⟩ := h.passes ht hc hx (hspace.mono (Nat.le_max_left _ _)) nofun
  have hrest : ∀ z k', z.position = i + 1 + body.size → AtEnd c m.exec.calls.length z k' w l →
      Passage (Turns c m.exec.calls.length) (i + 1 + body.size) j z k' { position := j } final ∧ l.Level final :=
    fun z k' hz hclosing => passage_tail ht hc tail hg.ladder hg.stands.tail.right hg.typed_tail
      ((hspace.mono (Nat.le_max_right _ _)).of_level hl) hz hclosing hr
  have hpassage : Passage (Turns c m.exec.calls.length) i j { position := i } m { position := j } final :=
    hpasses.passage rfl (by show i + 1 + body.size < j; omega)
      (fun y k henter => turns_enter hm.program hgo hx.opener hx.heads.type_first (henter .control))
      fun z k' hz hclosing => (hrest z k' hz hclosing).1
  have hlevel : m.Level final := by
    obtain ⟨_, _, z, k', -, -, hz, hclosing⟩ := hpasses
    exact hl.trans (hrest z k' hz hclosing).2
  refine ⟨hpassage, fun y k hy hend => ?_, hpassage.walk_eq, hlevel.carries.layer_eq, hlevel⟩
  obtain ⟨hcursor, hmachine⟩ := hpassage.unique rfl hy hend
  exact ⟨hcursor.symm, hmachine.symm⟩

end

end Work

/-! ## A group of three branches -/

open Work

/-- An entry chain that says which of three it is: not the first, but the second. -/
def weather : Program :=
  { registries := #[{ kinds := Library.standard.toArray }]
    blocks := #[
      ⟨0, ⟨1, 1⟩, 1, [], none, []⟩,
      ⟨0, ⟨4, 1⟩, 4, [.of .argument (.block 8)], none, []⟩,
      ⟨0, ⟨10, 1⟩, 10, [.of .argument (.text "cold")], none, []⟩,
      ⟨0, ⟨5, 1⟩, 5, [.of .argument (.text "true")], none, []⟩,
      ⟨0, ⟨10, 1⟩, 10, [.of .argument (.text "warm")], none, []⟩,
      ⟨0, ⟨6, 1⟩, 6, [], none, []⟩,
      ⟨0, ⟨10, 1⟩, 10, [.of .argument (.text "hot")], none, []⟩,
      ⟨0, ⟨0, 1⟩, 0, [], none, []⟩,
      ⟨0, ⟨17, 1⟩, 17, [.of .argument (.text "fal"), .of .argument (.text "se")], some 1, []⟩]
    chains := #[[0, 1, 2, 3, 4, 5, 6, 7]] }

def weatherBegun : Machine := { program := weather, exec := { limits := .standard, calls := [{ args := [] }] } }

theorem weather_placed {b : BlockId} (h : b < 9) : ∃ x, weather.Placed b x := by
  match b, h with
  | 0, _ => exact ⟨_, rfl, .of_index 1 (by decide) rfl, rfl, fun _ hs => (by cases hs)⟩
  | 1, _ => exact ⟨_, rfl, .of_index 4 (by decide) rfl, rfl, List.forall_mem_singleton.mpr (.of _ _ rfl)⟩
  | 3, _ => exact ⟨_, rfl, .of_index 5 (by decide) rfl, rfl, List.forall_mem_singleton.mpr (.of _ _ rfl)⟩
  | 5, _ => exact ⟨_, rfl, .of_index 6 (by decide) rfl, rfl, fun _ hs => (by cases hs)⟩
  | 7, _ => exact ⟨_, rfl, .of_index 0 (by decide) rfl, rfl, fun _ hs => (by cases hs)⟩
  | 8, _ =>
    exact ⟨_, rfl, .of_index 17 (by decide) rfl, rfl,
      List.forall_mem_cons.mpr ⟨.of _ _ rfl, List.forall_mem_singleton.mpr (.of _ _ rfl)⟩⟩
  | 2, _ | 4, _ | 6, _ => exact ⟨_, rfl, .of_index 10 (by decide) rfl, rfl, List.forall_mem_singleton.mpr (.of _ _ rfl)⟩

/-- The only block of the program that stands in an argument. -/
theorem weather_nested {b b' : BlockId} {x : Block} {s : Slot} (hb : b < 9) (hx : weather.blocks[b]? = some x)
    (hs : s ∈ x.slots) (hp : s.payload = .block b') : b' = 8 := by
  match b, hb with
  | 0, _ | 5, _ | 7, _ => cases hx; cases hs
  | 1, _ => cases hx; cases List.mem_singleton.mp hs; cases hp; rfl
  | 2, _ | 3, _ | 4, _ | 6, _ => cases hx; cases List.mem_singleton.mp hs; cases hp
  | 8, _ =>
    cases hx
    rcases List.mem_pair.mp hs with rfl | rfl <;> cases hp

def weatherRegion : Region weather where
  chains c := c = 0
  blocks b := b < 9
  listed := by
    rintro c b rfl hb
    exact (by decide : ∀ b ∈ weather.chain 0, b < 9) b hb
  placed := weather_placed
  nested hb hx hs hp := weather_nested hb hx hs hp ▸ by decide
  called {b c} hb hr _ := by
    match b, hb with
    | 0, _ | 1, _ | 2, _ | 3, _ | 4, _ | 5, _ | 6, _ | 7, _ | 8, _ => cases hr

theorem weather_tidy : weatherRegion.Tidy where
  validated := by
    rintro c rfl
    rfl
  arguments hb hx hs hp := weather_nested hb hx hs hp ▸ rfl

theorem weather_group :
    weather.IfGroup 0 1 1 (.leaf 2 .nil) (.more 3 (.leaf 4 .nil) (.more 5 (.leaf 6 .nil) (.stop 7))) where
  stands := ⟨[], rfl⟩
  typed_body := ⟨⟨rfl, rfl⟩, trivial⟩
  typed_tail := ⟨rfl, ⟨⟨rfl, rfl⟩, trivial⟩, rfl, ⟨⟨rfl, rfl⟩, trivial⟩, rfl⟩
  head := ⟨_, rfl, rfl⟩
  ladder := .elseIf ⟨_, rfl, rfl⟩ (.orElse ⟨_, rfl, rfl⟩)

theorem weather_works : weatherBegun.Works weather := ⟨rfl, List.cons_ne_nil _ _, [], [], rfl, .nil _ _, rfl⟩

/-- The second condition holds. -/
theorem weather_chooses :
    ∃ final, Chooses weather 0 1 [⟨1, 1, .leaf 2 .nil⟩, ⟨3, 3, .leaf 4 .nil⟩, ⟨5, 5, .leaf 6 .nil⟩] none weatherBegun
      final ∧ final.host.output = "warm\n" := by
  let k := (weatherBegun.holding [.ofMarker .opening]).noting ⟨8, -1, .opening, [.ofText "fal", .ofText "se"]⟩
  have hnested : ComesTo (weatherBegun.holding [.ofMarker .opening]) (.block 8) (.ofText "false") k :=
    .block (eventually_of_succ (.of_forall fun n => by rfl))
  exact ⟨_, .next (.intro (v := .ofText "false") rfl (by decide) hnested ⟨rfl, rfl⟩)
    (.chosen (.intro (v := .ofText "true") rfl (by decide) (.text "true") ⟨rfl, rfl⟩)
      (.intro (.one (by decide) (by decide) (eventually_of_succ (.of_forall fun n => by rfl))) (by rfl)
        ⟨by rfl, by rfl⟩)), by rfl⟩

/-- The walk comes past the group and has printed one line, of the second branch. -/
theorem if_group_runs_one_branch_weather :
    ∃ final turns, (∀ᶠ n in Filter.atTop, walk (n + turns) 0 1 { position := 1 } weatherBegun =
      walk n 0 1 { position := 8 } final) ∧ weatherBegun.Level final ∧ final.host.output = "warm\n" := by
  obtain ⟨final, hchooses, hprinted⟩ := weather_chooses
  obtain ⟨-, -, ⟨turns, hwalk⟩, -, hlevel⟩ := if_group_runs_one_branch weather_tidy rfl weather_group weather_works
    ⟨rfl, rfl⟩ (by decide) hchooses
  exact ⟨final, turns, hwalk, hlevel, hprinted⟩

end BlockEngine
