/-
  BlockEngine.Proofs.Library.Looping — a while loop tests its condition before every pass.

  A loop is a control block with one argument, its body, and the block that closes the body, which is
  its end or a continuation (`LoopAt`). At the end of a body that was run the head is called once more,
  and may ask to be entered again: the walk goes back to it, whatever closes the body. What is to
  become of a while loop is said without the walk, as for an if group: rounds, in each of which the
  condition comes to hold and the body is run (`Rounds`), and then a condition that does not hold.

  Proved, in a tidy region, where no stack overflows:
  - `exists_loopAt`: every control block of a chain that nests heads a loop.
  - `Passage.never_past`: a walk that comes back to a point of its chain again and again never ends.
  - `while_tests_before_every_pass`: the walk comes from the head to what closes the loop, having done
    just the rounds and one more test, and goes on there; if there is always another round it stays in
    the loop for ever.
-/

import BlockEngine.Proofs.Library.Branching
import BlockEngine.Proofs.Machine.Past

namespace BlockEngine

/-! ## Loops in their places -/

structure Program.LoopAt (p : Program) (c : ChainId) (id : Text) (x : Branch) (b : BlockId) : Prop where
  head : (p.kindOf x.head).Is id
  stands : StandAt (p.chain c) x.position (x.head :: (x.body.blocks ++ [b]))
  typed : x.body.Typed fun b => (p.kindOf b).type
  closes : (p.kindOf b).type.closes = true

structure Definition.HeadsLoop (d : Definition) (native : Native) : Prop where
  role : d.role = .plain
  type : d.type = .control
  native : d.native = some native
  declared : (d.inputs.filter (·.type.hasSlot)).map (·.type) = [.argument]

theorem Definition.Is.heads_while {d : Definition} (h : d.Is "while") : d.HeadsLoop Library.whileBlock := by
  constructor <;>
  · rw [h.eq rfl]
    rfl

theorem Program.LoopAt.toStands {p : Program} {c : ChainId} {id : Text} {x : Branch} {b : BlockId} {native : Native}
    (hx : p.LoopAt c id x b) (hh : (p.kindOf x.head).HeadsLoop native) : x.Stands p c where
  opener := hx.stands.head
  opens := by
    rw [hh.type]
    rfl
  body := hx.stands.tail.left
  typed := hx.typed
  closer := ⟨b, hx.stands.tail.right.head, hx.closes⟩

namespace StandAt

/-- What stands in a part of a chain stands in the chain. -/
theorem within {ys xs : List BlockId} {i : Nat} (h : StandAt ys i xs) (pre post : List BlockId) :
    StandAt (pre ++ (ys ++ post)) (pre.length + i) xs := by
  obtain ⟨rest, hrest⟩ := h
  show xs <+: (pre ++ (ys ++ post)).drop (pre.length + i)
  rw [List.drop_append, List.drop_of_length_le (Nat.le_add_right _ _), List.nil_append, Nat.add_sub_cancel_left,
    List.drop_append, ← hrest, List.append_assoc]
  exact List.prefix_append _ _

end StandAt

def OpensAt (type : BlockId → BlockType) (bs : List BlockId) (i : Nat) (b : BlockId) : Prop :=
  ∃ (body : Forest) (b' : BlockId),
    StandAt bs i (b :: (body.blocks ++ [b'])) ∧ body.Typed type ∧ (type b').closes = true

namespace OpensAt

variable {type : BlockId → BlockType} {bs : List BlockId} {i : Nat} {b : BlockId}

theorem within (h : OpensAt type bs i b) (pre post : List BlockId) :
    OpensAt type (pre ++ (bs ++ post)) (pre.length + i) b := by
  obtain ⟨body, b', hstands, hbody⟩ := h
  exact ⟨body, b', hstands.within pre post, hbody⟩

theorem after (h : OpensAt type bs i b) (first : BlockId) : OpensAt type (first :: bs) (i + 1) b := by
  have hafter := h.within [first] []
  rwa [List.append_nil, List.length_singleton, Nat.add_comm] at hafter

theorem left (h : OpensAt type bs i b) (post : List BlockId) : OpensAt type (bs ++ post) i b := by
  have hleft := h.within [] post
  rwa [List.nil_append, List.length_nil, Nat.zero_add] at hleft

theorem right (pre : List BlockId) (hi : pre.length ≤ i) (h : OpensAt type bs (i - pre.length) b) :
    OpensAt type (pre ++ bs) i b := by
  have hright := h.within pre []
  rwa [List.append_nil, Nat.add_sub_of_le hi] at hright

end OpensAt

mutual

/-- Where bodies nest, a control block has one that is closed. -/
theorem Forest.opensAt {type : BlockId → BlockType} (f : Forest) (hf : f.Typed type) {i : Nat} {b : BlockId}
    (hat : f.blocks[i]? = some b) (hb : type b = .control) : OpensAt type f.blocks i b := by
  cases f with
  | nil => cases hat
  | leaf b' rest =>
    rw [Forest.Typed] at hf
    rw [Forest.blocks] at hat ⊢
    cases i with
    | zero =>
      obtain rfl := Option.some.inj hat
      have hopens := hf.1.1
      rw [hb] at hopens
      cases hopens
    | succ i => exact (rest.opensAt hf.2 hat hb).after b'
  | group b' body tail rest =>
    rw [Forest.Typed] at hf
    obtain ⟨-, hbody, htail, hrest⟩ := hf
    rw [Forest.blocks] at hat ⊢
    cases i with
    | zero =>
      obtain rfl := Option.some.inj hat
      refine ⟨body, tail.first, ?_, hbody, tail.first_closes htail⟩
      rw [StandAt, List.drop_zero, List.cons_prefix_cons]
      refine ⟨rfl, (List.prefix_append_right_inj _).mpr ?_⟩
      cases tail <;> exact List.prefix_append _ _
    | succ i =>
      refine OpensAt.after ?_ b'
      rw [List.getElem?_cons_succ, List.getElem?_append] at hat
      split at hat
      · exact (body.opensAt hbody hat hb).left _
      · refine .right _ (by omega) ?_
        rw [List.getElem?_append] at hat
        split at hat
        · exact (tail.opensAt htail hat hb).left _
        · exact .right _ (by omega) (rest.opensAt hrest hat hb)

theorem Tail.opensAt {type : BlockId → BlockType} (t : Tail) (ht : t.Typed type) {i : Nat} {b : BlockId}
    (hat : t.blocks[i]? = some b) (hb : type b = .control) : OpensAt type t.blocks i b := by
  cases t with
  | stop b' =>
    rw [Tail.Typed] at ht
    rw [Tail.blocks] at hat
    cases i with
    | zero =>
      obtain rfl := Option.some.inj hat
      cases ht.symm.trans hb
    | succ i => cases hat
  | more b' body tail =>
    rw [Tail.Typed] at ht
    obtain ⟨hb', hbody, htail⟩ := ht
    rw [Tail.blocks] at hat ⊢
    cases i with
    | zero =>
      obtain rfl := Option.some.inj hat
      cases hb'.symm.trans hb
    | succ i =>
      refine OpensAt.after ?_ b'
      rw [List.getElem?_cons_succ, List.getElem?_append] at hat
      split at hat
      · exact (body.opensAt hbody hat hb).left _
      · exact .right _ (by omega) (tail.opensAt htail hat hb)

end

/-- Every control block of a chain that nests heads a loop. -/
theorem exists_loopAt {p : Program} {c : ChainId} (hv : p.validate c = none) {i : Nat} {b : BlockId} {id : Text}
    (hat : (p.chain c)[i]? = some b) (hb : (p.kindOf b).Is id) (ht : (p.kindOf b).type = .control) :
    ∃ body b', p.LoopAt c id ⟨b, i, body⟩ b' := by
  obtain ⟨f, hf⟩ := (validate_iff_tree p c).mp hv
  obtain ⟨hblocks, htyped⟩ := blocks_of_tree hf
  rw [← hblocks] at hat
  obtain ⟨body, b', hstands, hbody, hcloses⟩ := f.opensAt htyped hat ht
  rw [hblocks] at hstands
  exact ⟨body, b', hb, hstands, hbody, hcloses⟩

/-! ## Coming back -/

namespace Work

open Filter (atTop)

/-- With less fuel a turn starves or comes out alike. -/
theorem Turns.driven {c : ChainId} {depth : Nat} {x y : Cursor} {m k : Machine} (h : Turns c depth x m y k)
    {host : Machine → Machine} (hh : ∀ m : Machine, m.MayResume (host m)) (n : Nat) :
    (∃ k', (advance (evaluate n) c depth x m).driven host = .starved k') ∨
      (advance (evaluate n) c depth x m).driven host = .done (.next y) k := by
  let l : Link := .here host hh (fun _ => False) (fun _ => False) True False
  obtain ⟨n', hn', hturn⟩ := ((Filter.eventually_ge_atTop n).and h).exists
  have hfollows : Outcome.Follows l ((advance (evaluate n) c depth x m).driven host) (.done (.next y) k) := by
    have hmirrors := advance_mirrors (interpreter_mirrors (l := l) trivial hn').1 c depth x m (.inl rfl)
    rw [Follows, l.second_eq rfl rfl, hturn] at hmirrors
    exact hmirrors
  by_cases hstarved : ∃ k', (advance (evaluate n) c depth x m).driven host = .starved k'
  · exact .inl hstarved
  · refine .inr (hfollows.eq rfl rfl (fun k' hk' => absurd ⟨k', hk'⟩ hstarved) ?_ ?_ ?_).symm
    · exact fun _ h => nomatch h
    · exact fun _ _ _ h => h
    · exact fun _ _ h => nomatch h

end Work

namespace Passage

open Work

variable {c : ChainId} {depth lo hi : Nat} {x : Cursor} {I : Machine → Prop}

/-- A walk that comes back to a point of its chain again and again never ends, and stays where it is. -/
theorem never_past (hlo : lo ≤ x.position) (hhi : x.position < hi)
    (hback : ∀ m, I m → ∃ y k l, Turns c depth x m y k ∧ Passage (Turns c depth) lo hi y k x l ∧ I l)
    {m : Machine} (hm : I m) :
    (∀ (host : Machine → Machine), (∀ m : Machine, m.MayResume (host m)) → ∀ n,
      ∃ k, (walk n c depth x m).driven host = .starved k) ∧
      ∀ {lo' hi' : Nat} {y : Cursor} {k : Machine}, Passage (Turns c depth) lo' hi' x m y k →
        lo ≤ y.position ∧ y.position < hi := by
  -- Wherever the walk stands, it is on its way back.
  have hnext : ∀ {y k l}, Passage (Turns c depth) lo hi y k x l → I l → (lo ≤ y.position ∧ y.position < hi) ∧
      ∃ y' k' l', Turns c depth y k y' k' ∧ Passage (Turns c depth) lo hi y' k' x l' ∧ I l' := by
    intro y k l h hl
    cases h with
    | here =>
      obtain ⟨y', k', l', hturn, hrest, hl'⟩ := hback _ hl
      exact ⟨⟨hlo, hhi⟩, y', k', l', hturn, hrest, hl'⟩
    | step hy hy' hturn hrest => exact ⟨⟨hy, hy'⟩, _, _, l, hturn, hrest, hl⟩
  refine ⟨fun host hh n => ?_, fun {lo' hi' y k} h => ?_⟩
  · suffices h : ∀ n y k l, Passage (Turns c depth) lo hi y k x l → I l →
        ∃ k', (walk n c depth y k).driven host = .starved k' from h n x m m (.here _ _) hm
    intro n
    induction n with
    | zero =>
      intro y k l _ _
      rw [walk]
      exact ⟨k, rfl⟩
    | succ n ih =>
      intro y k l h hl
      obtain ⟨-, y', k', l', hturn, hrest, hl'⟩ := hnext h hl
      rw [walk_succ, driven_bind]
      rcases hturn.driven hh n with ⟨k'', hstarved⟩ | hdone
      · rw [hstarved]
        exact ⟨k'', rfl⟩
      · rw [hdone]
        exact ih y' k' l' hrest hl'
  · suffices h : ∀ {y₀ k₀ l}, Passage (Turns c depth) lo' hi' y₀ k₀ y k → Passage (Turns c depth) lo hi y₀ k₀ x l →
        I l → lo ≤ y.position ∧ y.position < hi from h ‹_› (.here _ _) hm
    intro y₀ k₀ l h
    induction h generalizing l with
    | here => exact fun hrest hl => (hnext hrest hl).1
    | step _ _ hstep _ ih =>
      intro hrest hl
      obtain ⟨-, y', k', l', hturn, hrest', hl'⟩ := hnext hrest hl
      obtain ⟨n, hn, hn'⟩ := (hstep.and hturn).exists
      cases hn.symm.trans hn'
      exact ih ‹_› hrest' hl'

end Passage

/-! ## Heads of loops at work -/

namespace Work

open Filter (atTop)

variable {p : Program} {R : Region p} {c : ChainId} {x : Branch} {b : BlockId} {id : Text} {native : Native}
  {m k l : Machine} {depth : Nat}

theorem slots_loop {y : Block} (hy : p.Placed x.head y) (hh : (p.kindOf x.head).HeadsLoop native) :
    y.slots.length = 1 := by
  have hlength := congrArg List.length (hy.slots.trans hh.declared)
  rwa [List.length_map] at hlength

/-- Going back to the block itself. -/
theorem performs_again {e : EvalState} {i : Nat} (hi : e.index = i) (hskip : e.skip = false) (v : Value) :
    Performs (Library.again >>= fun _ => Pure.pure v) e m v ⟨some i, false⟩ m.exec.control := by
  intro invoke journal
  obtain ⟨block, index, canSkip, skip, jump, error⟩ := e
  dsimp only at hi hskip
  subst hi hskip
  show Outcome.done v _ = _
  simp [Exec.mapEval]

section

variable (hb : R.blocks x.head) (hh : (p.kindOf x.head).HeadsLoop native)
include hb hh

/-- A head that is entered without its argument, or closed. -/
theorem loop_bare {room : Nat} (hm : HasRoom p depth room m) {mark : Marker} {bare : Bool} {prior : Option Value} {v : Value}
    {asked : Asked} {control : List ControlFrame} (hbare : (bare || mark == .closing) = true)
    (hprior : ∀ v ∈ prior, v.IsScalar)
    (h : Performs (native (.ofMarker mark :: prior.toList)) ⟨x.head, x.position, mark == .opening, false, none, none⟩
      (m.holding (.ofMarker mark :: prior.toList)) v asked control) :
    Answers x.head x.position mark bare prior m v asked
      (Machine.noting (x.call mark prior.toList) { m with exec.control := control }) := by
  obtain ⟨y, hy⟩ := R.placed hb
  obtain rfl := hm.works.program
  have hroom : m.exec.operands.length + (prior.toList.length + 1) ≤ m.exec.limits.operands := by
    have hoperands := hm.operands
    cases prior <;> simp only [Option.toList, List.length_nil, List.length_singleton] <;> omega
  exact answers_bare hy.block hh.role (by rw [hh.type]; rfl) hprior hh.native (.inl hbare) hroom h

omit hb in
/-- A head that yields a value is entered, and its body opened. -/
theorem turns_loop (hx : x.Stands p c) {bareNext skip : Bool} {v : Value} (hm : m.Works p) (hgo : m.Going)
    (hk : k.Works p) (hd : k.exec.calls.length = depth) (hgo' : k.Going)
    (hroom : k.exec.control.length < k.exec.limits.control)
    (hg : Gives x.head x.position .opening bareNext none m v skip k) :
    Turns c depth { position := x.position, bareNext := bareNext } m
      { position := x.start, suppressed := if skip then some (k.exec.layer + 1) else none } (k.inBody x.position v) :=
  turns_enter hm.program hgo hx.opener hh.type
    (enter_gives hx.opener hx.opens (Bool.or_false _) hg hd hk hgo' hroom .control)

/-- A head that has its body skipped is called once more at its end. -/
theorem loop_skipped (hx : x.Stands p c) {v w : Value} (hm : m.Works p) (hgo : m.Going)
    (hk : HasRoom p depth (x.body.depth + 1) k) (hg : Gives x.head x.position .opening false none m v true k)
    (h : Performs (native [.ofMarker .closing, v]) ⟨x.head, x.position, false, false, none, none⟩
      (k.holding [.ofMarker .closing, v]) w ⟨none, false⟩ k.exec.control) (hv : v.IsScalar) (hw : w.IsScalar) :
    ∃ y k', Passage (Turns c depth) x.position (x.stop + 1) { position := x.position } m y k' ∧
      y.position = x.stop ∧ AtEnd c depth y k' w (k.noting (x.call .closing [v])) := by
  have hclose : Gives x.head x.position .closing true (some v) k w false (k.noting (x.call .closing [v])) :=
    loop_bare hb hh hk rfl (fun _ hu => Option.some.inj hu ▸ hv) h
  obtain ⟨hpassage, hend⟩ := atEnd_skipped hk.works hk.going hk.depth hx.body hx.typed hx.opener hk.control hclose hw
    ((Machine.Level.refl hk.going).noting _)
  have hroom := hk.control
  have hopen := turns_loop hh hx hm hgo hk.works hk.depth hk.going (by omega) hg
  have hstart : x.position ≤ x.start := Nat.le_succ _
  have hstop : x.position < x.stop + 1 := Nat.lt_succ_of_le (hstart.trans (Nat.le_add_right _ _))
  exact ⟨_, _, .step (Nat.le_refl _) hstop hopen (hpassage.widen hstart (Nat.le_succ _)), rfl, hend⟩

/-- A condition is tested. -/
theorem Tests.loop (hm : m.Works p)
    (hnative : ∀ v : Value, native [.ofMarker .opening, v] = .gives (.ofBool v.toBool) (!v.toBool)) {holds : Bool}
    (h : Tests p x none m holds k) :
    Gives x.head x.position .opening false none m (.ofBool holds) (!holds) k := by
  obtain ⟨hpayload, hroom, hcomes, -⟩ := h
  obtain ⟨y, hy⟩ := R.placed hb
  obtain rfl := hm.program
  have hprior : ∀ v ∈ (none : Option Value), v.IsScalar := nofun
  exact gives_condition hy.block hh.role (by rw [hh.type]; rfl) hprior hh.native hpayload (slots_loop hy hh) hy.typed
    hroom hnative hm.calls hm.scopes hcomes

theorem Tests.level_loop (ht : R.Tidy) (hm : m.Works p) {holds : Bool} (h : Tests p x none m holds k) :
    m.Level k := by
  obtain ⟨hpayload, -, hcomes, hgo⟩ := h
  obtain ⟨y, hy⟩ := R.placed hb
  exact (hcomes.level ht hb hy.block (slots_loop hy hh) hpayload hm hgo _).noting _

end

/-! ## Ends of loops -/

/-- The walk comes from the head of a loop to the block that closes its body, and closes it there for good. It
    goes on after that block, or enters it if it continues the loop; the frames of open bodies are then what
    they were. -/
structure Leaves (p : Program) (c : ChainId) (depth : Nat) (x : Branch) (b : BlockId) (m final : Machine) : Prop where
  passage : ∃ y k, Passage (Turns c depth) x.position (x.stop + 1) { position := x.position } m y k ∧
    y.position = x.stop ∧ AtEnd c depth y k .nothing final
  ends : (p.kindOf b).type = .terminator → ∃ turns, ∀ᶠ n in atTop,
    walk (n + turns) c depth { position := x.position } m = walk n c depth { position := x.stop + 1 } final
  continues : (p.kindOf b).type = .continuation → ∃ turns, ∀ᶠ n in atTop,
    walk (n + 1 + turns) c depth { position := x.position } m =
      (enter (evaluate n) c depth { position := x.stop } b .continuation (some .nothing) >>= goOn c depth n) final
  layer : final.exec.layer = m.exec.layer
  level : m.Level final

/-- What the walk does at a continuation that closes a loop. -/
theorem AtEnd.walk_more {cursor : Cursor} {w : Value} (h : AtEnd c depth cursor m w k) (hk : k.program = p)
    (hat : (p.chain c)[cursor.position]? = some b) (ht : (p.kindOf b).type = .continuation) :
    ∀ᶠ n in atTop, walk (n + 1) c depth cursor m =
      (enter (evaluate n) c depth { position := cursor.position } b .continuation (some w) >>= goOn c depth n) k := by
  have hp := h.program.trans hk
  refine (h.closes .continuation).mono fun n hn => ?_
  rw [walk_succ, bind_apply, advance_apply (by rw [hp]; exact hat), unlessCancelled_none h.cancelled, hp, ht,
    if_pos (by decide), bind_apply, hn, bind_apply]
  rfl

theorem Leaves.of_passage (hx : p.LoopAt c id x b) {y : Cursor} {final : Machine} (hm : m.Works p)
    (hpassage : Passage (Turns c depth) x.position (x.stop + 1) { position := x.position } m y k)
    (hy : y.position = x.stop) (hend : AtEnd c depth y k .nothing final) (hlevel : m.Level final) :
    Leaves p c depth x b m final := by
  have hfinal : final.program = p := (hm.carries hlevel.carries).program
  have hat : (p.chain c)[y.position]? = some b := hy ▸ hx.stands.tail.right.head
  refine ⟨⟨y, k, hpassage, hy, hend⟩, fun ht => ?_, fun ht => ?_, hlevel.carries.layer_eq, hlevel⟩
  · have hlast := hend.stop hfinal hat ht
    rw [hy] at hlast
    have hstart : x.position ≤ x.stop := (Nat.le_succ _).trans (Nat.le_add_right _ _)
    exact (hpassage.trans (.one (hy ▸ hstart) (hy ▸ Nat.lt_succ_self _) hlast)).walk_eq
  · obtain ⟨turns, hwalk⟩ := hpassage.walk_eq
    refine ⟨turns, ?_⟩
    have hmore := hend.walk_more hfinal hat ht
    rw [hy] at hmore
    filter_upwards [(Filter.tendsto_add_atTop_nat 1).eventually hwalk, hmore] with n hn hn'
    rw [hn, hn']

/-! ## While loops -/

/-- A pass of a loop: the machines on which its condition was tested, its body was entered, and its body was
    closed. -/
structure Round where
  tested : Machine
  entered : Machine
  left : Machine

/-- Rounds of a while loop, one after another: each time the condition comes to hold, and the body is run. -/
inductive Rounds (p : Program) (c : ChainId) (depth : Nat) (x : Branch) : List Round → Machine → Machine → Prop
  | ended (m : Machine) : Rounds p c depth x [] m m
  | pass {m k l final : Machine} {rest : List Round} : Tests p x none m true k → Runs c depth x k l →
      Rounds p c depth x rest l final → Rounds p c depth x (⟨m, k, l⟩ :: rest) m final

theorem while_tests (v : Value) :
    Library.whileBlock [.ofMarker .opening, v] = .gives (.ofBool v.toBool) (!v.toBool) := by
  show (if v.toBool then _ else _) = Proc.gives _ (!v.toBool)
  cases v.toBool <;> rfl

section

variable (ht : R.Tidy) (hc : R.chains c) (hx : p.LoopAt c "while" x b)
include ht hc hx

/-- One round takes the walk from the head back to the head. -/
theorem round_passes (hm : HasRoom p depth (x.body.depth + 1) m) (htests : Tests p x none m true k)
    (hruns : Runs c depth x k l) :
    (∃ y k', Turns c depth { position := x.position } m y k' ∧
      Passage (Turns c depth) x.position (x.stop + 1) y k' { position := x.position } l) ∧
      m.Level k ∧ k.Level l ∧ l.exec.tags = k.exec.tags := by
  have hh := hx.head.heads_while
  have hstands := hx.toStands hh
  have hb : R.blocks x.head := R.listed hc (List.mem_of_getElem? hstands.opener)
  have hlevel := htests.level_loop hb hh ht hm.works
  have hgives := htests.loop hb hh hm.works while_tests
  have hk := hm.of_level hlevel
  have hroom := hk.control
  obtain ⟨k', hpassage, hran, hgo, rfl⟩ := hruns.ran ht hc hstands hk.works hk.depth
  have hclosed := hk.of_level hran.closed
  have hleft := hran.closed.noting (x.call .closing [.ofBool true])
  have hstart : x.position ≤ x.start := Nat.le_succ _
  have hstop : x.start ≤ x.stop := Nat.le_add_right _ _
  -- The head is entered, and at the end of the body it asks to be entered again.
  have hopen : Turns c depth { position := x.position } m { position := x.start }
      (k.inBody x.position (.ofBool true)) :=
    turns_loop hh hstands hm.works hm.going hk.works hk.depth hk.going (by omega) hgives
  have hagain : Answers x.head x.position .closing true (some (.ofBool true)) k'.bodyClosed .nothing
      ⟨some x.position, false⟩ (k'.bodyClosed.noting (x.call .closing [.ofBool true])) :=
    loop_bare hb hh hclosed rfl (fun _ hv => Option.some.inj hv ▸ trivial) (performs_again rfl rfl .nothing)
  have hback : Turns c depth { position := x.stop } k' { position := x.position }
      (k'.bodyClosed.noting (x.call .closing [.ofBool true])) := by
    have hworks := hk.works.program ▸ hran.works
    refine turns_back (w := .nothing) hworks hran.depth hgo.cancelled hran.layer hran.control hstands.opener rfl trivial
      (hleft.carries.frames.length_eq.trans hk.depth) (hk.works.carries hleft.carries) hleft.going
      hx.stands.tail.right.head hx.closes ?_
    rw [← hran.bodyClosed_eq]
    exact hagain
  refine ⟨⟨_, _, hopen, (hpassage.widen hstart (Nat.le_succ _)).trans ?_⟩, hlevel, hleft, hran.tags⟩
  exact .one (hstart.trans hstop) (Nat.lt_succ_self _) hback

/-- So do several, and each test is made where the first was: with the same bodies open, and without what the
    passes before it have bound. -/
theorem rounds_pass {rounds : List Round} (hm : HasRoom p depth (x.body.depth + 1) m)
    (h : Rounds p c depth x rounds m l) :
    Passage (Turns c depth) x.position (x.stop + 1) { position := x.position } m { position := x.position } l ∧
      m.Level l ∧ ∀ r ∈ rounds, m.Level r.tested ∧ r.left.exec.tags = r.entered.exec.tags := by
  induction h with
  | ended m => exact ⟨.here _ _, .refl hm.going, fun _ hr => nomatch hr⟩
  | @pass m k l final rest htests hruns _ ih =>
    obtain ⟨⟨y, k', hturn, hback⟩, hk, hl, htags⟩ := round_passes ht hc hx hm htests hruns
    obtain ⟨hpassage, hlevel, hrest⟩ := ih (hm.of_level (hk.trans hl))
    have hstop : x.position < x.stop + 1 := Nat.lt_succ_of_le ((Nat.le_succ _).trans (Nat.le_add_right _ _))
    refine ⟨.step (Nat.le_refl _) hstop hturn (hback.trans hpassage), (hk.trans hl).trans hlevel, ?_⟩
    rintro r (_ | ⟨_, hr⟩)
    · exact ⟨.refl hm.going, htags⟩
    · exact ⟨(hk.trans hl).trans (hrest r hr).1, (hrest r hr).2⟩

/-- A condition that does not hold has the body skipped, and ends the loop. -/
theorem refused_leaves (hm : HasRoom p depth (x.body.depth + 1) m) (htests : Tests p x none m false k) :
    (∃ y k', Passage (Turns c depth) x.position (x.stop + 1) { position := x.position } m y k' ∧
      y.position = x.stop ∧ AtEnd c depth y k' .nothing (k.noting (x.call .closing [.ofBool false]))) ∧
      m.Level k := by
  have hh := hx.head.heads_while
  have hstands := hx.toStands hh
  have hb : R.blocks x.head := R.listed hc (List.mem_of_getElem? hstands.opener)
  have hlevel := htests.level_loop hb hh ht hm.works
  have hgives := htests.loop hb hh hm.works while_tests
  exact ⟨loop_skipped hb hh hstands hm.works hm.going (hm.of_level hlevel) hgives
    (show Performs (.gives .nothing false) _ _ _ _ _ from performs_gives rfl rfl nofun) trivial trivial, hlevel⟩

end

section

variable {rounds : List Round}

/-- There is room for the operands of the first condition. -/
theorem Rounds.room (h : Rounds p c depth x rounds m l) {holds : Bool} (htests : Tests p x none l holds k) :
    m.exec.operands.length + 1 < m.exec.limits.operands := by
  cases h with
  | ended => exact htests.room
  | pass hfirst => exact hfirst.room

/-- A while loop tests its condition before every pass. If it holds some times, each time after the body was run
    since it last did, and then does not, the walk comes from the head to the block that closes the body and goes
    on there, having run the body once for each time that it held; each test is made with the bodies open that
    were open before the loop, and without the bindings of any pass. If the condition holds at every test, the
    walk never leaves the loop, whatever the host does meanwhile. -/
theorem while_tests_before_every_pass (ht : R.Tidy) (hc : R.chains c) (hx : p.LoopAt c "while" x b) (hm : m.Works p)
    (hgo : m.Going) (hroom : m.exec.control.length + (x.body.depth + 1) ≤ m.exec.limits.control) :
    (∀ {rounds l k}, Rounds p c m.exec.calls.length x rounds m l → Tests p x none l false k →
      Leaves p c m.exec.calls.length x b m (k.noting (x.call .closing [.ofBool false])) ∧
        (l.exec.layer = m.exec.layer ∧ m.Level l) ∧
        ∀ r ∈ rounds, r.tested.exec.layer = m.exec.layer ∧ m.Level r.tested ∧
          r.left.exec.tags = r.entered.exec.tags) ∧
      ∀ tested : Nat → Machine, tested 0 = m →
        (∀ n, ∃ k, Tests p x none (tested n) true k ∧ Runs c m.exec.calls.length x k (tested (n + 1))) →
        (∀ host : Machine → Machine, (∀ m : Machine, m.MayResume (host m)) → ∀ n,
          ∃ k, (walk n c m.exec.calls.length { position := x.position } m).driven host = .starved k) ∧
        ∀ {lo hi y k}, Passage (Turns c m.exec.calls.length) lo hi { position := x.position } m y k →
          x.position ≤ y.position ∧ y.position ≤ x.stop := by
  refine ⟨fun {rounds l k} hrounds htests => ?_, fun tested hfirst hall => ?_⟩
  · have hspace : HasRoom p m.exec.calls.length (x.body.depth + 1) m := ⟨hm, hgo, rfl, hrounds.room htests, hroom⟩
    obtain ⟨hpassage, hlevel, hpassed⟩ := rounds_pass ht hc hx hspace hrounds
    obtain ⟨⟨y, k', hlast, hy, hend⟩, hk⟩ := refused_leaves ht hc hx (hspace.of_level hlevel) htests
    refine ⟨.of_passage hx hm (hpassage.trans hlast) hy hend (hlevel.trans (hk.noting _)), ⟨hlevel.carries.layer_eq, hlevel⟩, ?_⟩
    intro r hr
    obtain ⟨htested, htags⟩ := hpassed r hr
    exact ⟨htested.carries.layer_eq, htested, htags⟩
  · have hspace : ∀ n, HasRoom p m.exec.calls.length (x.body.depth + 1) (tested n) := by
      intro n
      induction n with
      | zero =>
        obtain ⟨k, htests, -⟩ := hall 0
        rw [hfirst] at htests ⊢
        exact ⟨hm, hgo, rfl, htests.room, hroom⟩
      | succ n ih =>
        obtain ⟨k, htests, hruns⟩ := hall n
        obtain ⟨-, hk, hl, -⟩ := round_passes ht hc hx ih htests hruns
        exact ih.of_level (hk.trans hl)
    have hback : ∀ k, (∃ n, k = tested n) → ∃ y k' l, Turns c m.exec.calls.length { position := x.position } k y k' ∧
        Passage (Turns c m.exec.calls.length) x.position (x.stop + 1) y k' { position := x.position } l ∧
        ∃ n, l = tested n := by
      rintro _ ⟨n, rfl⟩
      obtain ⟨k, htests, hruns⟩ := hall n
      obtain ⟨⟨y, k', hturn, hrest⟩, -⟩ := round_passes ht hc hx (hspace n) htests hruns
      exact ⟨y, k', _, hturn, hrest, n + 1, rfl⟩
    have hstop : x.position < x.stop + 1 := Nat.lt_succ_of_le ((Nat.le_succ _).trans (Nat.le_add_right _ _))
    obtain ⟨hstarves, hstays⟩ := Passage.never_past (Nat.le_refl _) hstop hback ⟨0, hfirst.symm⟩
    refine ⟨hstarves, fun {lo hi y k} hpassage => ?_⟩
    obtain ⟨hlo, hhi⟩ := hstays hpassage
    exact ⟨hlo, Nat.le_of_lt_succ hhi⟩

end

end Work

/-! ## A loop that ends, and one that does not -/

open Work

/-- An entry chain with a loop that runs as long as a variable is not 0, which its body sets to 0, and a loop
    without end. -/
def vigil : Program :=
  { registries := #[{ kinds := Library.standard.toArray }]
    blocks := #[
      ⟨0, ⟨1, 1⟩, 1, [], none, []⟩,
      ⟨0, ⟨9, 1⟩, 9, [.of .argument (.block 6)], none, []⟩,
      ⟨0, ⟨12, 1⟩, 12, [.of .argument (.text "x"), .of .argument (.text "0")], none, []⟩,
      ⟨0, ⟨0, 1⟩, 0, [], none, []⟩,
      ⟨0, ⟨9, 1⟩, 9, [.of .argument (.text "true")], none, []⟩,
      ⟨0, ⟨0, 1⟩, 0, [], none, []⟩,
      ⟨0, ⟨13, 1⟩, 13, [.of .argument (.text "x")], some 1, []⟩]
    chains := #[[0, 1, 2, 3, 4, 5]] }

def vigilBegun : Machine :=
  { program := vigil
    exec := { limits := .standard, calls := [{ args := [] }], bindings := [⟨"x", .ofText "1", 1, 0, 0⟩] } }

theorem vigil_placed {b : BlockId} (h : b < 7) : ∃ x, vigil.Placed b x := by
  match b, h with
  | 0, _ => exact ⟨_, rfl, .of_index 1 (by decide) rfl, rfl, fun _ hs => (by cases hs)⟩
  | 1, _ | 4, _ => exact ⟨_, rfl, .of_index 9 (by decide) rfl, rfl, List.forall_mem_singleton.mpr (.of _ _ rfl)⟩
  | 2, _ =>
    exact ⟨_, rfl, .of_index 12 (by decide) rfl, rfl,
      List.forall_mem_cons.mpr ⟨.of _ _ rfl, List.forall_mem_singleton.mpr (.of _ _ rfl)⟩⟩
  | 3, _ | 5, _ => exact ⟨_, rfl, .of_index 0 (by decide) rfl, rfl, fun _ hs => (by cases hs)⟩
  | 6, _ => exact ⟨_, rfl, .of_index 13 (by decide) rfl, rfl, List.forall_mem_singleton.mpr (.of _ _ rfl)⟩

/-- The only block of the program that stands in an argument. -/
theorem vigil_nested {b b' : BlockId} {x : Block} {s : Slot} (hb : b < 7) (hx : vigil.blocks[b]? = some x)
    (hs : s ∈ x.slots) (hp : s.payload = .block b') : b' = 6 := by
  match b, hb with
  | 0, _ | 3, _ | 5, _ => cases hx; cases hs
  | 1, _ => cases hx; cases List.mem_singleton.mp hs; cases hp; rfl
  | 4, _ | 6, _ => cases hx; cases List.mem_singleton.mp hs; cases hp
  | 2, _ =>
    cases hx
    rcases List.mem_pair.mp hs with rfl | rfl <;> cases hp

def vigilRegion : Region vigil where
  chains c := c = 0
  blocks b := b < 7
  listed := by
    rintro c b rfl hb
    exact (by decide : ∀ b ∈ vigil.chain 0, b < 7) b hb
  placed := vigil_placed
  nested hb hx hs hp := vigil_nested hb hx hs hp ▸ by decide
  called {b c} hb hr _ := by
    match b, hb with
    | 0, _ | 1, _ | 2, _ | 3, _ | 4, _ | 5, _ | 6, _ => cases hr

theorem vigil_tidy : vigilRegion.Tidy where
  validated := by
    rintro c rfl
    rfl
  arguments hb hx hs hp := vigil_nested hb hx hs hp ▸ rfl

theorem vigil_works : vigilBegun.Works vigil :=
  ⟨rfl, List.cons_ne_nil _ _, [⟨"x", 1, 0⟩], [], rfl, ⟨by decide, by decide⟩, rfl⟩

def vigilWatch : Branch := ⟨1, 1, .leaf 2 .nil⟩

def vigilWait : Branch := ⟨4, 4, .nil⟩

theorem vigil_watches : vigil.LoopAt 0 "while" vigilWatch 3 :=
  ⟨⟨_, rfl, rfl⟩, ⟨[4, 5], rfl⟩, ⟨⟨rfl, rfl⟩, trivial⟩, rfl⟩

theorem vigil_waits : vigil.LoopAt 0 "while" vigilWait 5 := ⟨⟨_, rfl, rfl⟩, ⟨[], rfl⟩, trivial, rfl⟩

/-- The first loop is run once. -/
theorem vigil_rounds : ∃ r l k, Rounds vigil 0 1 vigilWatch [r] vigilBegun l ∧ Tests vigil vigilWatch none l false k := by
  let asked : NativeCall := ⟨6, -1, .opening, [.ofText "x"]⟩
  let entered := (vigilBegun.noting asked).noting (vigilWatch.call .opening [.ofText "1"])
  let done : Machine :=
    { (entered.inBody 1 (.ofBool true)).noting ⟨2, 2, .opening, [.ofText "x", .ofText "0"]⟩ with
      exec.bindings := [⟨"x", .ofText "0", 1, 0, 1⟩] }
  let left := done.bodyClosed.noting (vigilWatch.call .closing [.ofBool true])
  have hholds : ComesTo (vigilBegun.holding [.ofMarker .opening]) (.block 6) (.ofText "1")
      ((vigilBegun.holding [.ofMarker .opening]).noting asked) :=
    .block (eventually_of_succ (.of_forall fun n => by rfl))
  have hfails : ComesTo (left.holding [.ofMarker .opening]) (.block 6) (.ofText "0")
      ((left.holding [.ofMarker .opening]).noting asked) :=
    .block (eventually_of_succ (.of_forall fun n => by rfl))
  have hset : Turns 0 1 { position := 2 } (entered.inBody 1 (.ofBool true)) { position := 3 } done :=
    eventually_of_succ (.of_forall fun n => by rfl)
  have htests : Tests vigil vigilWatch none vigilBegun true entered :=
    @Tests.intro vigil vigilWatch none vigilBegun _ (.ofText "1") _ rfl (by decide) hholds ⟨rfl, rfl⟩
  have hruns : Runs 0 1 vigilWatch entered left := .intro (.one (by decide) (by decide) hset) rfl ⟨rfl, rfl⟩
  exact ⟨_, left, _, .pass htests hruns (.ended _),
    @Tests.intro vigil vigilWatch none left _ (.ofText "0") _ rfl (by decide) hfails ⟨rfl, rfl⟩⟩

/-- The machine before each test of the second loop: all that has changed is which calls were made. -/
def vigilSpent : Nat → Machine
  | 0 => vigilBegun
  | n + 1 => ((vigilSpent n).noting (vigilWait.call .opening [.ofText "true"])).noting
      (vigilWait.call .closing [.ofBool true])

theorem vigilSpent_eq (n : Nat) : vigilSpent n = { vigilBegun with journal := (vigilSpent n).journal } := by
  induction n with
  | zero => rfl
  | succ n ih =>
    rw [vigilSpent, ih]
    rfl

/-- The second loop always has another round. -/
theorem vigil_endless (n : Nat) : ∃ k, Tests vigil vigilWait none (vigilSpent n) true k ∧
    Runs 0 1 vigilWait k (vigilSpent (n + 1)) := by
  rw [vigilSpent, vigilSpent_eq n]
  generalize (vigilSpent n).journal = journal
  have hroom : ({ vigilBegun with journal := journal } : Machine).exec.operands.length + 1 <
      vigilBegun.exec.limits.operands := by
    show 0 + 1 < 4096
    decide
  exact ⟨_, .intro (v := .ofText "true") rfl hroom (.text "true") ⟨rfl, rfl⟩, .intro (.here _ _) rfl ⟨rfl, rfl⟩⟩

/-- The walk comes from the first loop to the second after one pass, and stays there. -/
theorem while_tests_before_every_pass_vigil :
    (∃ final, Leaves vigil 0 1 vigilWatch 3 vigilBegun final) ∧
      ∀ n, ∃ k, (walk n 0 1 { position := 4 } vigilBegun).driven id = .starved k := by
  obtain ⟨r, l, k, hrounds, htests⟩ := vigil_rounds
  obtain ⟨hends, -⟩ := while_tests_before_every_pass vigil_tidy rfl vigil_watches vigil_works ⟨rfl, rfl⟩ (by decide)
  obtain ⟨-, hendless⟩ := while_tests_before_every_pass vigil_tidy rfl vigil_waits vigil_works ⟨rfl, rfl⟩ (by decide)
  exact ⟨⟨_, (hends hrounds htests).1⟩, (hendless vigilSpent rfl vigil_endless).1 id Machine.MayResume.refl⟩

end BlockEngine
