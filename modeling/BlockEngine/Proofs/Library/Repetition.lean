/-
  BlockEngine.Proofs.Library.Repetition — a repetition runs its body as often as its count says.

  A repetition evaluates its count once, as it is entered. It keeps the number of passes left on the
  control stack, under the frame of its body, so that whatever the body does on that stack is done above
  it. At the end of a pass its head takes the number off, and either puts it back less one and is
  entered again, without its count, or leaves off. What is to become of it is said without the walk:
  the count comes to a number (`CountsTo`), and so many passes are run one after another, each over the
  number of those after it (`Repeats`). With no passes to run the body is skipped.

  Proved, in a tidy region, where no stack overflows:
  - `CountsTo.level`: the count leaves the bodies, frames and bindings around it as they were.
  - `repetition_passes`: from the first pass the walk comes to the end of the last.
  - `repeat_runs_count_times`: the walk comes from the head to what closes the repetition, having run the
    body as many times as the count says, and none if it is not positive.
-/

import BlockEngine.Proofs.Library.Looping

namespace BlockEngine

theorem Definition.Is.heads_repeat {d : Definition} (h : d.Is "repeat") : d.HeadsLoop Library.repeatBlock := by
  constructor <;>
  · rw [h.eq rfl]
    rfl

/-! ## Numbers of passes -/

namespace Storage

theorem length_viewItems {s : Storage} (c : Cell) (i : Nat) (vs : List Value) :
    (s.viewItems c i vs).length = vs.length := by
  induction vs generalizing i with
  | nil => rw [viewItems]
  | cons v vs ih => rw [viewItems, List.length_cons, ih, List.length_cons]

/-- What was freed of a value does not show in the number that it counts as. -/
theorem toInt64_view {s : Storage} (v : Value) : (s.view v).toInt64 = v.toInt64 := by
  cases v with
  | scalar o x => rw [view]
  | list o c items =>
    rw [view]
    simp only [Value.toInt64, Value.toInt64?, length_viewItems]

end Storage

/-- One of some more passes leaves these. -/
theorem ofNat_succ_sub_one (r : Nat) : Int64.ofNat (r + 1) - 1 = Int64.ofNat r := by
  rw [Int64.ofNat_add]
  exact Int64.add_sub_cancel _ _

theorem ofNat_succ_pos {r : Nat} (h : r + 1 < 2 ^ 63) : 0 < Int64.ofNat (r + 1) := by
  rw [Int64.lt_iff_toInt_lt, Int64.toInt_ofNat_of_lt h]
  exact Int.natCast_pos.mpr (Nat.succ_pos r)

/-- A positive number of passes. -/
theorem ofNat_toNat_toInt {n : Int64} (h : 0 < n) : Int64.ofNat n.toInt.toNat = n := by
  have hpos : (0 : Int) < n.toInt := Int64.lt_iff_toInt_lt.mp h
  have hlt := n.toInt_lt
  apply Int64.toInt_inj.mp
  rw [Int64.toInt_ofNat_of_lt (by omega)]
  omega

namespace Machine

def keeping (n : Int64) (m : Machine) : Machine := { m with exec.control := .data (.ofInt n) :: m.exec.control }

def unkept (m : Machine) : Machine := { m with exec.control := m.exec.control.tail }

theorem Level.unkept {m l : Machine} {n : Int64} (h : (m.keeping n).Level l) : m.Level l.unkept := by
  have hkept : m.Carries (m.keeping n) := .of_eq rfl rfl (.refl _) rfl
  refine ⟨(hkept.trans h.carries).trans (.of_eq rfl rfl (.refl _) rfl), ?_, h.operands, h.eval, h.going.cancelled,
    h.going.unfinished⟩
  show l.exec.control.tail = _
  rw [h.control]
  rfl

end Machine

namespace Work

open Filter (atTop)

/-! ## What becomes of a repetition -/

inductive CountsTo (p : Program) (x : Branch) (m : Machine) : Int64 → Machine → Prop
  | intro {payload : Payload} {v : Value} {k : Machine} : p.condition x.head = some payload →
      m.exec.operands.length + 1 < m.exec.limits.operands →
      ComesTo (m.holding [.ofMarker .opening]) payload v k → k.Going →
      CountsTo p x m v.toInt64
        (Machine.noting (x.call .opening [k.storage.view v])
          { k with exec.operands := m.exec.operands, storage := k.storage.release v })

/-- Passes of a repetition, one after another, given by the machines on which they begin. A pass after the first is
    entered without the count. -/
inductive Repeats (c : ChainId) (depth : Nat) (x : Branch) : List Machine → Machine → Machine → Prop
  /-- There are none: the body is skipped. -/
  | skipped (m : Machine) : Repeats c depth x [] m (m.noting (x.call .closing [.ofBool false]))
  | last {m l : Machine} : Runs c depth x (m.keeping 0) l → Repeats c depth x [m] m l.unkept
  | again {m l next final : Machine} {rest : List Machine} :
      Runs c depth x (m.keeping (.ofNat (rest.length + 1))) l →
      Repeats c depth x (next :: rest) (l.unkept.noting (x.call .opening [])) final →
      Repeats c depth x (m :: next :: rest) m final

/-! ## The code of a repetition -/

section

variable {m : Machine} {e : EvalState} {v : Value} {left : Int64} {rest : List ControlFrame}

theorem performs_begin (hjump : e.jump = none) (hskip : e.skip = false) (hv : 0 < v.toInt64)
    (hroom : m.exec.control.length < m.exec.limits.control) :
    Performs (Library.repeatBlock [.ofMarker .opening, v]) e m (.ofBool true) ⟨none, false⟩
      (.data (.ofInt (v.toInt64 - 1)) :: m.exec.control) := by
  intro invoke journal
  have hnot : ¬ v.toInt64 ≤ 0 := by simpa using hv
  have hcode : Library.repeatBlock [.ofMarker .opening, v] =
      Proc.pushData (.ofInt (v.toInt64 - 1)) >>= fun _ => Pure.pure (.ofBool true) := if_neg hnot
  obtain ⟨block, index, canSkip, skip, jump, error⟩ := e
  dsimp only at hjump hskip
  subst hjump hskip
  rw [hcode]
  show (pushControl (.data (.ofInt (v.toInt64 - 1))) >>= fun _ => Pure.pure (Value.ofBool true)) _ = _
  rw [bind_apply, pushControl, if_pos hroom]
  rfl

theorem repeat_skips (hv : v.toInt64 ≤ 0) :
    Library.repeatBlock [.ofMarker .opening, v] = .gives (.ofBool false) true := if_pos hv

variable (hcontrol : m.exec.control = .data (.ofInt left) :: rest)
include hcontrol

/-- At the end of a pass the number of those left is taken off the control stack. -/
theorem perform_closing (invoke : Invoker) (journal : List NativeCall) :
    perform invoke (Library.repeatBlock [.ofMarker .closing, .ofBool true])
        { m with exec.eval := some e, journal := journal } =
      perform invoke
        (if 0 < left then
          Proc.pushData (.ofInt (left - 1)) >>= fun _ => Library.again >>= fun _ => Pure.pure .omitted
        else Pure.pure .nothing)
        { m with exec.eval := some e, exec.control := rest, journal := journal } := by
  have hcode : Library.repeatBlock [.ofMarker .closing, .ofBool true] = Proc.popData >>= fun v =>
      if 0 < v.toInt64 then
        Proc.pushData (.ofInt (v.toInt64 - 1)) >>= fun _ => Library.again >>= fun _ => Pure.pure .omitted
      else Pure.pure .nothing := rfl
  let k : Machine := { m with exec.eval := some e, journal := journal }
  have hpop : popData k = .done (.ofInt left) { k with exec.control := rest } := by
    have hk : k.exec.control = .data (.ofInt left) :: rest := hcontrol
    rw [popData, hk]
  rw [hcode]
  show (popData >>= fun v => perform invoke (if 0 < v.toInt64 then _ else _)) k = _
  rw [bind_apply, hpop]
  rfl

theorem performs_pass {i : Nat} (hi : e.index = i) (hskip : e.skip = false) (hleft : 0 < left)
    (hroom : rest.length < m.exec.limits.control) :
    Performs (Library.repeatBlock [.ofMarker .closing, .ofBool true]) e m .omitted ⟨some i, false⟩
      (.data (.ofInt (left - 1)) :: rest) := by
  intro invoke journal
  rw [perform_closing hcontrol, if_pos hleft]
  show (pushControl (.data (.ofInt (left - 1))) >>= fun _ => perform invoke (Library.again >>= _)) _ = _
  rw [bind_apply, pushControl, if_pos hroom]
  let k : Machine := { m with exec.control := .data (.ofInt (left - 1)) :: rest }
  exact performs_again (m := k) hi hskip .omitted invoke journal

theorem performs_end (hjump : e.jump = none) (hskip : e.skip = false) (hleft : ¬ 0 < left) :
    Performs (Library.repeatBlock [.ofMarker .closing, .ofBool true]) e m .nothing ⟨none, false⟩ rest := by
  intro invoke journal
  rw [perform_closing hcontrol, if_neg hleft]
  obtain ⟨block, index, canSkip, skip, jump, error⟩ := e
  dsimp only at hjump hskip
  subst hjump hskip
  rfl

end

/-! ## Passes -/

variable {p : Program} {R : Region p} {c : ChainId} {x : Branch} {b : BlockId} {m k l final : Machine} {depth : Nat}

theorem HasRoom.keeping {room : Nat} (h : HasRoom p depth (room + 1) m) (n : Int64) :
    HasRoom p depth room (m.keeping n) := by
  refine ⟨h.works.carries (.of_eq rfl rfl (.refl _) rfl), ⟨h.going.cancelled, h.going.unfinished⟩, h.depth, h.operands, ?_⟩
  have hcontrol := h.control
  show m.exec.control.length + 1 + room ≤ m.exec.limits.control
  omega

theorem CountsTo.room {n : Int64} (h : CountsTo p x m n k) :
    m.exec.operands.length + 1 < m.exec.limits.operands := by
  obtain ⟨-, hroom, -, -⟩ := h
  exact hroom

section

variable (hb : R.blocks x.head) (hh : (p.kindOf x.head).HeadsLoop Library.repeatBlock) (hm : m.Works p) {n : Int64}
  (h : CountsTo p x m n k)
include hb hh hm h

/-- The count leaves the frames and the bindings around it as they were. -/
theorem CountsTo.level (ht : R.Tidy) : m.Level k := by
  obtain ⟨hpayload, -, hcomes, hgo⟩ := h
  obtain ⟨y, hy⟩ := R.placed hb
  exact (hcomes.level ht hb hy.block (slots_loop hy hh) hpayload hm hgo _).noting _

/-- A count that is not positive has the body skipped. -/
theorem CountsTo.skips (hn : n ≤ 0) : Gives x.head x.position .opening false none m (.ofBool false) true k := by
  obtain @⟨payload, v, k, hpayload, hroom, hcomes, -⟩ := h
  obtain ⟨y, hy⟩ := R.placed hb
  obtain rfl := hm.program
  have hprior : ∀ v ∈ (none : Option Value), v.IsScalar := nofun
  refine answers_condition hy.block hh.role (by rw [hh.type]; rfl) hprior hh.native hpayload (slots_loop hy hh) hy.typed
    hroom hm.calls hm.scopes hcomes ?_
  show Performs (Library.repeatBlock [.ofMarker .opening, k.storage.view v]) _ _ _ _ _
  rw [repeat_skips (by rwa [Storage.toInt64_view])]
  exact performs_gives rfl rfl fun _ => rfl

/-- Another is kept, less one, for the passes after the first. -/
theorem CountsTo.begins (hn : 0 < n) (hcontrol : k.exec.control.length < k.exec.limits.control) :
    Gives x.head x.position .opening false none m (.ofBool true) false (k.keeping (n - 1)) := by
  obtain @⟨payload, v, k, hpayload, hroom, hcomes, -⟩ := h
  obtain ⟨y, hy⟩ := R.placed hb
  obtain rfl := hm.program
  have hprior : ∀ v ∈ (none : Option Value), v.IsScalar := nofun
  refine answers_condition hy.block hh.role (by rw [hh.type]; rfl) hprior hh.native hpayload (slots_loop hy hh) hy.typed
    hroom hm.calls hm.scopes hcomes ?_
  show Performs (Library.repeatBlock [.ofMarker .opening, k.storage.view v]) _ _ _ _ _
  have hbegin := performs_begin (m := { k with exec.operands := v :: k.exec.operands })
    (e := ⟨x.head, x.position, true, false, none, none⟩) (v := k.storage.view v) rfl rfl
    (by rwa [Storage.toInt64_view]) hcontrol
  rwa [Storage.toInt64_view] at hbegin

end

section

variable (ht : R.Tidy) (hc : R.chains c) (hx : p.LoopAt c "repeat" x b)
include ht hc hx

omit ht hc hx in
/-- What a pass leaves on top of the control stack. -/
theorem Ran.kept {n : Int64} {y : Cursor} {v : Value} (h : Ran c depth x v (m.keeping n) y k) :
    k.bodyClosed.exec.control = .data (.ofInt n) :: k.bodyClosed.exec.control.tail := by
  rw [h.closed.control]
  rfl

/-- After the last pass the repetition leaves off. -/
theorem last_pass (hm : HasRoom p depth 2 m) (hruns : Runs c depth x (m.keeping 0) l) :
    (∃ k, Passage (Turns c depth) x.start x.stop { position := x.start }
        ((m.keeping 0).inBody x.position (.ofBool true)) { position := x.stop } k ∧
      AtEnd c depth { position := x.stop } k .nothing l.unkept) ∧ m.Level l.unkept := by
  have hh := hx.head.heads_repeat
  have hstands := hx.toStands hh
  have hb : R.blocks x.head := R.listed hc (List.mem_of_getElem? hstands.opener)
  have hk := hm.keeping 0
  obtain ⟨k', hpassage, hran, hgo, rfl⟩ := hruns.ran ht hc hstands hk.works hk.depth
  have hleft := (hran.closed.noting (x.call .closing [.ofBool true])).unkept
  have hend : Gives x.head x.position .closing true (some (.ofBool true)) k'.bodyClosed .nothing false
      (k'.bodyClosed.noting (x.call .closing [.ofBool true])).unkept :=
    loop_bare hb hh (hk.of_level hran.closed) rfl (fun _ hv => Option.some.inj hv ▸ trivial)
      (performs_end hran.kept rfl rfl (by decide))
  refine ⟨⟨k', hpassage, ?_⟩, hleft⟩
  have hworks := hk.works.program ▸ hran.works
  refine .of_gives hworks hran.depth hgo.cancelled hran.layer hran.control hstands.opener rfl trivial
    (hleft.carries.frames.length_eq.trans hm.depth) (hm.works.carries hleft.carries) hleft.going ?_
  rwa [← hran.bodyClosed_eq]

/-- After another the head is entered again, without its count, and the next pass begins. -/
theorem another_pass {r : Nat} (hr : r + 1 < 2 ^ 63) (hm : HasRoom p depth 2 m)
    (hruns : Runs c depth x (m.keeping (.ofNat (r + 1))) l) :
    Passage (Turns c depth) x.position (x.stop + 1) { position := x.start }
        ((m.keeping (.ofNat (r + 1))).inBody x.position (.ofBool true)) { position := x.start }
        (((l.unkept.noting (x.call .opening [])).keeping (.ofNat r)).inBody x.position (.ofBool true)) ∧
      m.Level (l.unkept.noting (x.call .opening [])) ∧
      (l.unkept.noting (x.call .opening [])).exec.tags = m.exec.tags := by
  have hh := hx.head.heads_repeat
  have hstands := hx.toStands hh
  have hb : R.blocks x.head := R.listed hc (List.mem_of_getElem? hstands.opener)
  have hk := hm.keeping (.ofNat (r + 1))
  obtain ⟨k', hpassage, hran, hgo, rfl⟩ := hruns.ran ht hc hstands hk.works hk.depth
  have hclosed := hk.of_level hran.closed
  have hleft := (hran.closed.noting (x.call .closing [.ofBool true])).unkept
  have hl := hm.of_level hleft
  let again := ((k'.bodyClosed.noting (x.call .closing [.ofBool true])).unkept).keeping (.ofNat r)
  have hagain : HasRoom p depth 1 again := hl.keeping _
  have hpasses : Answers x.head x.position .closing true (some (.ofBool true)) k'.bodyClosed .omitted
      ⟨some x.position, false⟩ again := by
    have hcontrol := hclosed.control
    have htail := congrArg List.length hran.kept
    rw [List.length_cons] at htail
    have hpass := performs_pass (m := k'.bodyClosed.holding [.ofMarker .closing, .ofBool true])
      (e := ⟨x.head, x.position, false, false, none, none⟩) hran.kept rfl rfl (ofNat_succ_pos hr)
      (by show k'.bodyClosed.exec.control.tail.length < k'.bodyClosed.exec.limits.control; omega)
    rw [ofNat_succ_sub_one] at hpass
    exact loop_bare hb hh hclosed rfl (fun _ hv => Option.some.inj hv ▸ trivial) hpass
  have hback : Turns c depth { position := x.stop } k' { position := x.position, bareNext := true } again := by
    have hworks := hk.works.program ▸ hran.works
    refine turns_back (w := .omitted) hworks hran.depth hgo.cancelled hran.layer hran.control hstands.opener rfl trivial
      hagain.depth hagain.works hagain.going hx.stands.tail.right.head hx.closes ?_
    rw [← hran.bodyClosed_eq]
    exact hpasses
  have hresumes : Gives x.head x.position .opening true none again (.ofBool true) false
      (again.noting (x.call .opening [])) :=
    loop_bare hb hh hagain rfl nofun
      (show Performs (.gives (.ofBool true) false) _ _ _ _ _ from performs_gives rfl rfl nofun)
  have hnext := hagain.of_level ((Machine.Level.refl hagain.going).noting (x.call .opening []))
  have hcontrol := hnext.control
  have hopen := turns_loop hh hstands hagain.works hagain.going hnext.works hnext.depth hnext.going (by omega) hresumes
  have hstart : x.position ≤ x.start := Nat.le_succ _
  have hstop : x.start ≤ x.stop := Nat.le_add_right _ _
  refine ⟨(hpassage.widen hstart (Nat.le_succ _)).trans ?_, hleft.noting _, hran.tags⟩
  exact .step (hstart.trans hstop) (Nat.lt_succ_self _) hback
    (.one (Nat.le_refl _) (Nat.lt_succ_of_le (hstart.trans hstop)) hopen)

/-- From the beginning of a pass the walk comes to the end of the last, and each begins with the bodies open that
    were open before, and without what the passes before it have bound. -/
theorem repetition_passes {starts : List Machine} (h : Repeats c depth x starts m final) (hsome : starts ≠ [])
    (hm : HasRoom p depth 2 m) (hfew : starts.length ≤ 2 ^ 63) :
    (∃ k, Passage (Turns c depth) x.position (x.stop + 1) { position := x.start }
        ((m.keeping (.ofNat (starts.length - 1))).inBody x.position (.ofBool true)) { position := x.stop } k ∧
      AtEnd c depth { position := x.stop } k .nothing final) ∧
      m.Level final ∧ ∀ s ∈ starts, m.Level s ∧ s.exec.tags = m.exec.tags := by
  induction h with
  | skipped m => exact absurd rfl hsome
  | @last m l hruns =>
    obtain ⟨⟨k, hpassage, hend⟩, hlevel⟩ := last_pass ht hc hx hm hruns
    refine ⟨⟨k, hpassage.widen (Nat.le_succ _) (Nat.le_succ _), hend⟩, hlevel, ?_⟩
    exact List.forall_mem_singleton.mpr ⟨.refl hm.going, rfl⟩
  | @again m l next final rest hruns _ ih =>
    simp only [List.length_cons] at hfew ih
    obtain ⟨hpassage, hlevel, htags⟩ := another_pass ht hc hx (by omega) hm hruns
    obtain ⟨⟨k, hrest, hend⟩, hfinal, hstarts⟩ := ih (List.cons_ne_nil _ _) (hm.of_level hlevel) (by omega)
    refine ⟨⟨k, hpassage.trans hrest, hend⟩, hlevel.trans hfinal, ?_⟩
    rintro s (_ | ⟨_, hs⟩)
    · exact ⟨.refl hm.going, rfl⟩
    · exact ⟨hlevel.trans (hstarts s hs).1, (hstarts s hs).2.trans htags⟩

variable {n : Int64}

/-- A positive count has the body run. -/
theorem counted_passes (hm : HasRoom p depth 2 m) (hcount : CountsTo p x m n k) (hn : 0 < n) {starts : List Machine}
    (hstarts : starts.length = n.toInt.toNat) (h : Repeats c depth x starts k final) :
    (∃ y k', Passage (Turns c depth) x.position (x.stop + 1) { position := x.position } m y k' ∧
      y.position = x.stop ∧ AtEnd c depth y k' .nothing final) ∧
      k.Level final ∧ ∀ s ∈ starts, k.Level s ∧ s.exec.tags = k.exec.tags := by
  have hh := hx.head.heads_repeat
  have hstands := hx.toStands hh
  have hb : R.blocks x.head := R.listed hc (List.mem_of_getElem? hstands.opener)
  have hk := hm.of_level (hcount.level hb hh hm.works ht)
  have hkept := hk.keeping (n - 1)
  have hroom := hk.control
  have hroom' := hkept.control
  have hpos : (0 : Int) < n.toInt := Int64.lt_iff_toInt_lt.mp hn
  have hlt := n.toInt_lt
  have hnumber : Int64.ofNat (starts.length - 1) = n - 1 := by
    have hsucc := ofNat_succ_sub_one (starts.length - 1)
    rw [Nat.sub_add_cancel (by omega), hstarts, ofNat_toNat_toInt hn] at hsucc
    rw [hstarts, hsucc]
  have hsome : starts ≠ [] := by
    rintro rfl
    rw [List.length_nil] at hstarts
    omega
  obtain ⟨⟨k', hpassage, hend⟩, hfinal, hpasses⟩ := repetition_passes ht hc hx h hsome hk (by omega)
  rw [hnumber] at hpassage
  have hopen := turns_loop hh hstands hm.works hm.going hkept.works hkept.depth hkept.going (by omega)
    (hcount.begins hb hh hm.works hn (by omega))
  have hstop : x.position < x.stop + 1 := Nat.lt_succ_of_le ((Nat.le_succ _).trans (Nat.le_add_right _ _))
  exact ⟨⟨_, k', .step (Nat.le_refl _) hstop hopen hpassage, rfl, hend⟩, hfinal, hpasses⟩

/-- Any other has it skipped. -/
theorem uncounted_passes (hm : HasRoom p depth (x.body.depth + 1) m) (hcount : CountsTo p x m n k) (hn : n ≤ 0) :
    ∃ y k', Passage (Turns c depth) x.position (x.stop + 1) { position := x.position } m y k' ∧
      y.position = x.stop ∧ AtEnd c depth y k' .nothing (k.noting (x.call .closing [.ofBool false])) := by
  have hh := hx.head.heads_repeat
  have hstands := hx.toStands hh
  have hb : R.blocks x.head := R.listed hc (List.mem_of_getElem? hstands.opener)
  have hk := hm.of_level (hcount.level hb hh hm.works ht)
  exact loop_skipped hb hh hstands hm.works hm.going hk (hcount.skips hb hh hm.works hn)
    (show Performs (.gives .nothing false) _ _ _ _ _ from performs_gives rfl rfl nofun) trivial trivial

end

/-- A repetition runs its body as often as its count says. The count is evaluated once, as the repetition is entered,
    and comes to some number; the body is run that many times, and not at all if the number is not positive. Each
    pass begins with the bodies open that were open before the repetition, and without the bindings of the passes
    before it. The walk then comes to the block that closes the body and goes on there, and the frames of open
    bodies are what they were. A body that is skipped is walked for its frames, so that these must not overflow
    the control stack; one that is run has the number of passes left under its own. -/
theorem repeat_runs_count_times (ht : R.Tidy) (hc : R.chains c) (hx : p.LoopAt c "repeat" x b) (hm : m.Works p)
    (hgo : m.Going) {n : Int64} (hcount : CountsTo p x m n k)
    (hroom : m.exec.control.length + (if 0 < n then 2 else x.body.depth + 1) ≤ m.exec.limits.control)
    {starts : List Machine} (hstarts : (starts.length : Int) = max n.toInt 0)
    (h : Repeats c m.exec.calls.length x starts k final) :
    Leaves p c m.exec.calls.length x b m final ∧ m.Level k ∧
      ∀ s ∈ starts, s.exec.layer = m.exec.layer ∧ m.Level s ∧ s.exec.tags = k.exec.tags := by
  have hh := hx.head.heads_repeat
  have hb : R.blocks x.head := R.listed hc (List.mem_of_getElem? hx.stands.head)
  have hlevel := hcount.level hb hh hm ht
  have hpos : 0 < n ↔ 0 < n.toInt := Int64.lt_iff_toInt_lt
  by_cases hn : 0 < n
  · rw [if_pos hn] at hroom
    have hpositive := hpos.mp hn
    obtain ⟨⟨y, k', hpassage, hy, hend⟩, hfinal, hpasses⟩ := counted_passes ht hc hx
      ⟨hm, hgo, rfl, hcount.room, hroom⟩ hcount hn (by omega) h
    refine ⟨.of_passage hx hm hpassage hy hend (hlevel.trans hfinal), hlevel, ?_⟩
    intro s hs
    obtain ⟨hs, htags⟩ := hpasses s hs
    exact ⟨(hlevel.trans hs).carries.layer_eq, hlevel.trans hs, htags⟩
  · rw [if_neg hn] at hroom
    have hnot : ¬ 0 < n.toInt := fun h => hn (hpos.mpr h)
    obtain rfl := List.eq_nil_of_length_eq_zero (show starts.length = 0 by omega)
    cases h
    obtain ⟨y, k', hpassage, hy, hend⟩ := uncounted_passes ht hc hx ⟨hm, hgo, rfl, hcount.room, hroom⟩ hcount
      (by simpa using hn)
    exact ⟨.of_passage hx hm hpassage hy hend (hlevel.noting _), hlevel, fun _ hs => nomatch hs⟩

end Work

/-! ## A repetition of two passes -/

open Work

def twiceBegun : Machine := { program := twice, exec := { limits := .standard, calls := [{ args := [] }] } }

def twiceLoop : Branch := ⟨1, 1, .leaf 2 .nil⟩

theorem twice_loop : twice.LoopAt 0 "repeat" twiceLoop 3 := ⟨⟨_, rfl, rfl⟩, ⟨[], rfl⟩, ⟨⟨rfl, rfl⟩, trivial⟩, rfl⟩

def Machine.ticked (m : Machine) : Machine :=
  { m with
    host.printed := "tick!" :: m.host.printed
    host.writes := m.host.writes + 1
    journal := ⟨2, 2, .opening, [.ofText "tick!"]⟩ ::
      ⟨4, -1, .opening, [.ofText "tick", .ofText "!"]⟩ :: m.journal }

/-- The body is run twice. -/
theorem twice_repeats : ∃ k starts final, CountsTo twice twiceLoop twiceBegun 2 k ∧ starts.length = 2 ∧
    Repeats 0 1 twiceLoop starts k final ∧ final.host.output = "tick!\ntick!\n" := by
  let k := twiceBegun.noting (twiceLoop.call .opening [.ofText "2"])
  let once := ((k.keeping 1).inBody 1 (.ofBool true)).ticked.bodyClosed.noting (twiceLoop.call .closing [.ofBool true])
  let next := once.unkept.noting (twiceLoop.call .opening [])
  let again :=
    ((next.keeping 0).inBody 1 (.ofBool true)).ticked.bodyClosed.noting (twiceLoop.call .closing [.ofBool true])
  have hcount : CountsTo twice twiceLoop twiceBegun 2 k :=
    @CountsTo.intro twice twiceLoop twiceBegun _ (.ofText "2") _ rfl (by decide) (.text "2") ⟨rfl, rfl⟩
  have honce : Turns 0 1 { position := 2 } ((k.keeping 1).inBody 1 (.ofBool true)) { position := 3 }
      ((k.keeping 1).inBody 1 (.ofBool true)).ticked :=
    eventually_of_succ (eventually_of_succ (.of_forall fun n => by rfl))
  have hagain : Turns 0 1 { position := 2 } ((next.keeping 0).inBody 1 (.ofBool true)) { position := 3 }
      ((next.keeping 0).inBody 1 (.ofBool true)).ticked :=
    eventually_of_succ (eventually_of_succ (.of_forall fun n => by rfl))
  have hfirst : Runs 0 1 twiceLoop (k.keeping 1) once := .intro (.one (by decide) (by decide) honce) rfl ⟨rfl, rfl⟩
  have hlast : Runs 0 1 twiceLoop (next.keeping 0) again := .intro (.one (by decide) (by decide) hagain) rfl ⟨rfl, rfl⟩
  exact ⟨k, [k, next], again.unkept, hcount, rfl, .again hfirst (.last hlast), rfl⟩

/-- The walk comes past the repetition and has printed two lines. -/
theorem repeat_runs_count_times_twice :
    ∃ final, Leaves twice 0 1 twiceLoop 3 twiceBegun final ∧ final.host.output = "tick!\ntick!\n" := by
  obtain ⟨k, starts, final, hcount, hlength, hrepeats, hprinted⟩ := twice_repeats
  have hworks : twiceBegun.Works twice := ⟨rfl, List.cons_ne_nil _ _, [], [], rfl, .nil _ _, rfl⟩
  obtain ⟨hleaves, -⟩ := repeat_runs_count_times twice_tidy rfl twice_loop hworks ⟨rfl, rfl⟩ hcount (by decide)
    (by rw [hlength]; decide) hrepeats
  exact ⟨final, hleaves, hprinted⟩

end BlockEngine
