/-
  BlockEngine.Proofs.Library.Binding — the arguments and the result of an invocation.

  An invocation is followed from where it begins, at some depth, on some arguments (`Followed`). Until it
  ends, the frame at that depth has these arguments, and its result is a copy of what the last of its
  return blocks was given (`Followed.Stands`). What other invocations do, above it, happens to their own
  frames; in the followed one itself, the program being one of standard blocks, nothing but a return block
  asks for the end.

  Proved, of every region, wherever a chain of it is invoked (`invokeSeen_tells`):
  - a machine that is shown in the invocation itself has its arguments in the innermost frame;
  - the invocation ends with a copy of what the last return block in it was given, or with nothing.
-/

import BlockEngine.Proofs.Library.Region
import BlockEngine.Proofs.Library.Returning
import BlockEngine.Proofs.Machine.Frames
import BlockEngine.Proofs.Machine.History

namespace BlockEngine

/-! ## Returned values -/

/-- A return block is at work in the invocation at a depth, and no other invocation in it. -/
def Machine.returning (depth : Nat) (m : Machine) : Bool :=
  m.exec.calls.length == depth && m.busy.any fun b => (m.program.kindOf b).isReturn

theorem Machine.returning_of_ne {depth : Nat} {m : Machine} (h : m.exec.calls.length ≠ depth) :
    m.returning depth = false := by
  rw [returning, beq_eq_false_iff_ne.mpr h, Bool.false_and]

def Machine.given (m : Machine) : Option Value := m.journal.head?.bind (·.operands.head?)

/-- What the last return block was given in the invocation at a depth, of which these machines were shown. -/
def Machine.returned (depth : Nat) (ms : List Machine) : Option Value :=
  (ms.filter (·.returning depth)).getLast?.bind (·.given)

theorem Machine.returned_snoc {depth : Nat} {m : Machine} (ms : List Machine) (h : m.returning depth = true) :
    Machine.returned depth (ms ++ [m]) = m.given := by
  simp [Machine.returned, h]

theorem Machine.returned_snoc_of_not {depth : Nat} {m : Machine} (ms : List Machine)
    (h : m.returning depth = false) : Machine.returned depth (ms ++ [m]) = Machine.returned depth ms := by
  simp [Machine.returned, h]

def Value.Copies : Option Value → Option Value → Prop
  | none, r => r = none
  | some v, r => ∃ x, r = some x ∧ (x.IsScalar → x = v.retagged)

theorem Value.Copies.eq_retagged {o r : Option Value} (h : Value.Copies o r) (hr : (r.getD .nothing).IsScalar) :
    r.getD .nothing = (o.map Value.retagged).getD .nothing := by
  cases o with
  | none =>
    rw [show r = none from h]
    rfl
  | some v =>
    obtain ⟨x, rfl, hx⟩ := h
    exact hx hr

/-- What is copied to a scalar was one. -/
theorem Storage.copy_eq_retagged {s : Storage} {v : Value} (h : (s.copy v).1.IsScalar) : (s.copy v).1 = v.retagged := by
  cases v with
  | scalar o x => rw [copy_of_scalar (v := .scalar o x) trivial]
  | list o c items => simp [copy, view, Value.retagged, place, Value.IsScalar] at h

/-! ## A followed invocation -/

/-- An invocation of a program that is followed: how deep it is, its arguments, and what the host may do while it
    waits. -/
structure Followed where
  program : Program
  depth : Nat
  args : List Value
  host : Machine → Machine → Prop
  mayResume : ∀ {m k}, host m k → m.MayResume k

namespace Followed

variable (S : Followed)

def Recorded : Prop := ∀ m k, S.host m k → k.journal = m.journal

def Shows (m : Machine) : Prop :=
  m.program = S.program ∧ (m.exec.calls.length = S.depth → ∃ f fs, m.exec.calls = f :: fs ∧ f.args = S.args)

/-- The invocation is under way, with a result that is a copy of what was returned last of what these machines
    show. -/
structure Holds (ms : List Machine) (m : Machine) : Prop where
  program : m.program = S.program
  frame : ∃ gs r rest, m.exec.accounts = gs ++ (S.args, r) :: rest ∧ rest.length + 1 = S.depth ∧
    (S.Recorded → Value.Copies (Machine.returned S.depth ms) r)

/-- And no return block is at work in it. -/
structure Stands (ms : List Machine) (m : Machine) : Prop extends S.Holds ms m where
  idle : m.returning S.depth = false

variable {S} {ms : List Machine} {m k : Machine}

/-- Whether a block returns depends on how deep it is at work. -/
theorem returning_alike (hk : m.Alike k) (depth : Nat) : k.returning depth = m.returning depth := by
  have hlen := congrArg List.length hk.accounts
  rw [Exec.accounts_length, Exec.accounts_length] at hlen
  rw [Machine.returning, Machine.returning, hlen, hk.busy, hk.program]

theorem Holds.alike (h : S.Holds ms m) (hk : m.Alike k) : S.Holds ms k :=
  ⟨hk.program.trans h.program, hk.accounts ▸ h.frame⟩

theorem Stands.alike (h : S.Stands ms m) (hk : m.Alike k) : S.Stands ms k :=
  ⟨h.toHolds.alike hk, (returning_alike hk _).trans h.idle⟩

theorem Stands.seen (h : S.Stands ms m) (hk : S.host m k) : S.Stands (ms ++ [m]) k := by
  refine Stands.alike ⟨⟨h.program, ?_⟩, h.idle⟩ (S.mayResume hk).alike
  rw [Machine.returned_snoc_of_not ms h.idle]
  exact h.frame

/-- The frame at the depth is the innermost one where the depth is that of the machine. -/
theorem shows_of_frame {gs rest : List (List Value × Option Value)} {r : Option Value} (hp : m.program = S.program)
    (ha : m.exec.accounts = gs ++ (S.args, r) :: rest) (hd : rest.length + 1 = S.depth) : S.Shows m := by
  refine ⟨hp, fun hlen => ?_⟩
  have hgs := congrArg List.length ha
  rw [Exec.accounts_length, List.length_append, List.length_cons] at hgs
  obtain rfl : gs = [] := List.eq_nil_of_length_eq_zero (by omega)
  obtain ⟨f, fs, hf, ha, -⟩ := List.map_eq_cons_iff.mp ha
  exact ⟨f, fs, hf, congrArg Prod.fst ha⟩

theorem Holds.shows (h : S.Holds ms m) : S.Shows m := by
  obtain ⟨gs, r, rest, ha, hd, -⟩ := h.frame
  exact shows_of_frame h.program ha hd

theorem Holds.depth_le (h : S.Holds ms m) : S.depth ≤ m.exec.calls.length := by
  obtain ⟨gs, r, rest, ha, hd, -⟩ := h.frame
  have hlen := congrArg List.length ha
  rw [Exec.accounts_length, List.length_append, List.length_cons] at hlen
  omega

end Followed

namespace Work

variable {α β : Type} (S : Followed) (L : Nat)

/-- Work in an invocation at depth `L`, which is the followed one or one in it, keeps the followed one as it
    stands and comes back to where it began. -/
def Binds (Q : α → Prop) (w : Work α) : Prop :=
  ∀ m ms, m.exec.calls.length = L → S.Stands ms m →
    (w m).Tells S.host S.Shows
      (fun a ms' k => S.Stands ms' k ∧ k.exec.calls.length = L ∧ k.busy = m.busy ∧ Q a) ms

abbrev Abides (w : Work α) : Prop := w.Binds S L fun _ => True

variable {S L} {Q : α → Prop} {R : β → Prop}

theorem binds_bind {w : Work α} {f : α → Work β} (hw : w.Binds S L Q) (hf : ∀ a, Q a → (f a).Binds S L R) :
    (w >>= f).Binds S L R := by
  intro m ms hm hs
  rw [bind_apply]
  refine (hw m ms hm hs).bind fun a ms' k hk => ?_
  obtain ⟨hstands, hlen, hbusy, ha⟩ := hk
  exact (hf a ha k ms' hlen hstands).mono fun b ms'' l hl => ⟨hl.1, hl.2.1, hl.2.2.1.trans hbusy, hl.2.2.2⟩

theorem abides_bind {w : Work α} {f : α → Work β} (hw : w.Abides S L) (hf : ∀ a, (f a).Abides S L) :
    (w >>= f).Abides S L := binds_bind hw fun a _ => hf a

theorem binds_pure {a : α} (h : Q a) : (Pure.pure a : Work α).Binds S L Q := fun _ _ hm hs => ⟨hs, hm, rfl, h⟩

theorem abides_pure (a : α) : (Pure.pure a : Work α).Abides S L := binds_pure trivial

/-- What is read of the program. -/
theorem binds_read {f : Machine → α} (h : ∀ m : Machine, m.program = S.program → Q (f m)) :
    (read f).Binds S L Q := fun m _ hm hs => ⟨hs, hm, rfl, h m hs.program⟩

theorem abides_read (f : Machine → α) : (read f).Abides S L := binds_read fun _ _ => trivial

theorem Aside.abides {w : Work α} (h : w.Aside) : w.Abides S L := by
  intro m ms hm hs
  have hw := h m
  unfold Meets at hw
  generalize w m = o at hw
  induction o generalizing ms with
  | done a k =>
    have hlen := congrArg List.length (Machine.Alike.accounts hw)
    rw [Exec.accounts_length, Exec.accounts_length] at hlen
    exact ⟨hs.alike hw, hlen.trans hm, hw.busy, trivial⟩
  | fault f k => exact (hs.toHolds.alike hw).shows
  | starved k => exact (hs.toHolds.alike hw).shows
  | paused k resume ih =>
    refine ⟨(hs.toHolds.alike hw.1).shows, fun l hl => ih l _ ?_ (hw.2 l (S.mayResume hl))⟩
    exact ((hs.alike hw.1).seen hl).alike (hw.1.trans (S.mayResume hl).alike).symm

theorem binds_seen {w : Work α} (h : w.Binds S L Q) : (seen w).Binds S L Q := by
  intro m ms hm hs
  refine ⟨hs.shows, fun k hk => ?_⟩
  have hexec := (S.mayResume hk).2
  have hlen : k.exec.calls.length = L := by
    rw [hexec]
    exact hm
  refine (h k _ hlen (hs.seen hk)).mono fun a ms' l hl => ⟨hl.1, hl.2.1, hl.2.2.1.trans ?_, hl.2.2.2⟩
  exact (S.mayResume hk).alike.busy

/-! ## Natives -/

/-- In an invocation above the followed one the end may be asked for. -/
theorem finish_abides (hL : L ≠ S.depth) (v : Value) : (finish v).Abides S L := by
  intro m ms hm hs
  obtain ⟨gs, r, rest, ha, hd, hr⟩ := hs.frame
  have hlen := congrArg List.length ha
  rw [Exec.accounts_length, hm, List.length_append, List.length_cons] at hlen
  cases gs with
  | nil =>
    rw [List.length_nil] at hlen
    omega
  | cons g gs =>
    obtain ⟨f, fs, hc, -, hfs⟩ := List.map_eq_cons_iff.mp ha
    have hlen' : fs.length + 1 = L := by rw [← hm, hc, List.length_cons]
    have hfinish : finish v m = .done ()
        { m with
          exec.calls := { f with result := some v } :: fs
          storage := m.storage.release (f.result.getD .nothing) } := by
      unfold finish Work.modify
      simp only [hc]
    rw [hfinish]
    refine ⟨⟨⟨hs.program, (f.args, some v) :: gs, r, rest, ?_, hd, hr⟩, ?_⟩, hlen', rfl, trivial⟩
    · rw [Exec.accounts, List.map_cons, hfs]
      rfl
    · exact Machine.returning_of_ne (hlen'.trans_ne hL)

section

variable {invoke : Invoker} (hi : ∀ c args, (invoke c args).Abides S L)
include hi

theorem call_abides (c : Option ChainId) (args : List Value) : (call invoke c args).Abides S L := by
  cases c with
  | none => exact abides_bind (aside_fail _).abides fun _ => abides_pure _
  | some c =>
    refine abides_bind (aside_onStorage _).abides fun bound => abides_bind (hi c bound) fun r => ?_
    refine abides_bind (Aside.abides (aside_modify fun _ => ?_)) fun _ => ?_
    · exact .of_exec rfl rfl rfl
    · cases r with
      | ok v => exact abides_pure v
      | error x => exact abides_bind (aside_fail x).abides fun _ => abides_pure _

/-- In the followed invocation itself the end must not be asked for. -/
theorem answer_abides {r : Request} (hr : L = S.depth → ∀ v, r ≠ .finish v) : (answer invoke r).Abides S L := by
  by_cases hf : ∃ v, r = .finish v
  · obtain ⟨v, rfl⟩ := hf
    exact finish_abides (fun hL => hr hL v rfl) v
  by_cases hc : ∃ c args, r = .call c args
  · obtain ⟨c, args, rfl⟩ := hc
    exact call_abides hi c args
  · exact (aside_answer invoke (fun v e => hf ⟨v, e⟩) fun c args e => hc ⟨c, args, e⟩).abides

/-- A native that goes on, or one of an invocation above the followed one. -/
theorem performSeen_abides (q : Proc α) (hq : L = S.depth → q.GoesOn) : (performSeen invoke q).Abides S L := by
  induction q with
  | done a => exact binds_seen (abides_pure a)
  | crash x => exact binds_seen (aside_crash x).abides
  | ask r go ih =>
    refine binds_seen (abides_bind (answer_abides hi fun hL => (hq hL).1) fun reply => ?_)
    exact ih reply fun hL => (hq hL).2 reply

end

/-- A return block sets a copy of what it was given as the result. -/
theorem returnBlock_tells (invoke : Invoker) {args : List Value} {m : Machine} {ms : List Machine}
    (hs : S.Holds ms m) (hr : m.returning S.depth = true) (hg : m.given = args.head?) :
    (performSeen invoke (Library.returnBlock args) m).Tells S.host S.Shows
      (fun _ ms' k => S.Holds ms' k ∧ k.exec.calls.length = S.depth) ms := by
  cases args with
  | nil =>
    refine ⟨hs.shows, fun k hk => ?_⟩
    exact (hs.alike (S.mayResume hk).alike).shows
  | cons o args =>
    -- The native is shown before it copies, before it ends the invocation and after.
    refine ⟨hs.shows, fun k hk => ?_⟩
    let c := (k.storage.copy o).1
    let k₁ : Machine := { k with storage := (k.storage.copy o).2 }
    have hk₁ : m.Alike k₁ := (S.mayResume hk).alike.trans (.of_exec rfl rfl rfl)
    refine ⟨(hs.alike hk₁).shows, fun k₂ hk₂ => ?_⟩
    have hk₂' : m.Alike k₂ := hk₁.trans (S.mayResume hk₂).alike
    have hret : k₂.returning S.depth = true := (Followed.returning_alike hk₂' _).trans hr
    have hlen : k₂.exec.calls.length = S.depth := beq_iff_eq.mp (Bool.and_eq_true_iff.mp hret).1
    obtain ⟨f, fs, hc, hf⟩ := (hs.alike hk₂').shows.2 hlen
    let k₃ : Machine :=
      { k₂ with
        exec.calls := { f with result := some c } :: fs
        storage := k₂.storage.release (f.result.getD .nothing) }
    have hfinish : finish c k₂ = .done () k₃ := by
      unfold finish Work.modify
      simp only [hc, k₃]
    have hlen₃ : k₃.exec.calls.length = S.depth := by rw [← hlen, hc, List.length_cons, List.length_cons]
    have hret₃ : k₃.returning S.depth = true := by
      rw [← hret, Machine.returning, Machine.returning, hlen₃, hlen]
      rfl
    have hp₃ : k₃.program = S.program := hk₂'.program.trans hs.program
    have ha₃ : k₃.exec.accounts = [] ++ (S.args, some c) :: fs.map fun f => (f.args, f.result) := by
      rw [← hf]
      rfl
    have hd₃ : (fs.map fun f => (f.args, f.result)).length + 1 = S.depth := by
      rw [List.length_map, ← hlen₃, List.length_cons]
    show ((finish c >>= fun _ => performSeen invoke (Pure.pure Value.nothing)) k₂).Tells _ _ _ _
    rw [bind_apply, hfinish]
    refine ⟨Followed.shows_of_frame hp₃ ha₃ hd₃, fun k₄ hk₄ => ⟨?_, ?_⟩⟩
    · refine Followed.Holds.alike ⟨hp₃, [], some c, _, ha₃, hd₃, fun hrec => ?_⟩ (S.mayResume hk₄).alike
      have hjournal : k₃.journal = m.journal := (hrec k₁ k₂ hk₂).trans (hrec m k hk)
      have hgiven : k₃.given = some o := by
        rw [Machine.given, hjournal]
        exact hg
      rw [Machine.returned_snoc _ hret₃, hgiven]
      exact ⟨c, rfl, Storage.copy_eq_retagged⟩
    · rw [(S.mayResume hk₄).2]
      exact hlen₃

/-! ## Evaluation -/

/-- Calling a native of a block that may return, if it is the return block, from the followed invocation. -/
theorem callNativeBy_abides {invoke : Invoker} (hi : ∀ c args, (invoke c args).Abides S L) {native : Native}
    {e : EvalState}
    (hn : L = S.depth → if (S.program.kindOf e.block).isReturn then native = Library.returnBlock else native.GoesOn)
    (mark : Marker) (base : Nat) : (callNativeBy (performSeen invoke) native e mark base).Abides S L := by
  intro m ms hm hs
  let args := ((m.exec.operands.take (m.exec.operands.length - base)).map m.storage.view).reverse
  let k : Machine := { m with exec.eval := some e, journal := ⟨e.block, e.index, mark, args⟩ :: m.journal }
  have hk : S.Holds ms k := ⟨hs.program, hs.frame⟩
  -- Back from the native, what was at work before is at work again.
  have hback : ∀ v ms' l, S.Holds ms' l → l.exec.calls.length = L →
      ((do
        let inner ← read (·.exec.eval)
        mapExec fun x => { x with eval := m.exec.eval }
        truncateOperands base
        return (v, inner.getD e) : Work (Value × EvalState)) l).Tells S.host S.Shows
        (fun a ms'' l' => S.Stands ms'' l' ∧ l'.exec.calls.length = L ∧ l'.busy = m.busy ∧ True) ms' := by
    intro v ms' l hl hlen
    refine ⟨⟨⟨hl.program, hl.frame⟩, ?_⟩, hlen, rfl, trivial⟩
    rw [← hs.idle, Machine.returning, Machine.returning, hm, hs.program]
    show (l.exec.calls.length == S.depth && m.busy.any fun b => (l.program.kindOf b).isReturn) = _
    rw [hlen, hl.program]
  show (((performSeen invoke (native args)) >>= _) k).Tells _ _ _ _
  rw [bind_apply]
  by_cases hret : L = S.depth ∧ (S.program.kindOf e.block).isReturn = true
  · obtain ⟨hL, hret⟩ := hret
    have hnative := hn hL
    rw [if_pos hret] at hnative
    rw [hnative]
    have hkret : k.returning S.depth = true := by
      rw [Machine.returning, Bool.and_eq_true, beq_iff_eq]
      refine ⟨hm.trans hL, ?_⟩
      show (k.program.kindOf e.block).isReturn = true
      rw [hk.program]
      exact hret
    refine (returnBlock_tells invoke hk hkret rfl).bind fun v ms' l hl => ?_
    exact hback v ms' l hl.1 (hl.2.trans hL.symm)
  · have hstands : S.Stands ms k := by
      refine ⟨hk, ?_⟩
      rw [Bool.eq_false_iff]
      intro hkret
      rw [Machine.returning, Bool.and_eq_true, beq_iff_eq] at hkret
      refine hret ⟨hm.symm.trans hkret.1, ?_⟩
      have := hkret.2
      rw [hk.program] at this
      exact this
    have hgoes : L = S.depth → (native args).GoesOn := by
      intro hL
      have hnative := hn hL
      rw [if_neg fun h => hret ⟨hL, h⟩] at hnative
      exact hnative args
    refine (performSeen_abides hi (native args) hgoes k ms hm hstands).bind fun v ms' l hl => ?_
    exact hback v ms' l hl.1.toHolds hl.2.1

section

variable {p : Program} (R : Region p) (hp : S.program = p)

/-- Every evaluation keeps the followed invocation as it stands, in which the blocks are those of the region. -/
def EvaluatesAbiding (S : Followed) (L : Nat) (eval : Evaluator) : Prop :=
  ∀ b index mark bare prior, (L = S.depth → R.blocks b) → (eval b index mark bare prior).Abides S L

variable {R} {eval : Evaluator} (he : EvaluatesAbiding R S L eval)
include hp he

omit hp in
theorem pushSlot_abides (d : Definition) (index : Int) {s : Slot}
    (hs : ∀ b', s.payload = .block b' → L = S.depth → R.blocks b') : (pushSlot eval d index s).Abides S L := by
  unfold pushSlot
  cases ht : s.type with
  | text | const => exact abides_bind (aside_pushOperand _).abides fun _ => abides_pure _
  | definition | unknown => exact abides_pure _
  | block =>
    cases hb : s.block with
    | none => exact (aside_crash _).abides
    | some b' =>
      refine abides_bind (he _ _ _ _ _ (hs b' (Slot.payload_of_block ht hb))) fun r => ?_
      split
      · exact abides_pure _
      · exact abides_bind (aside_pushOperand _).abides fun _ => abides_pure _

/-- What a slot of a block of the region holds is of the region. -/
theorem pushSlots_abides {b : BlockId} (hb : L = S.depth → R.blocks b) (d : Definition) (index : Int) (is : List Nat) :
    (pushSlots eval d b index is).Abides S L := by
  induction is with
  | nil => exact abides_pure _
  | cons i is ih =>
    have hslot : (slotAt b i).Binds S L fun o =>
        ∀ s, o = some s → ∀ b', s.payload = .block b' → L = S.depth → R.blocks b' := by
      refine binds_read fun m hm s hs b' hb' hL => ?_
      rw [hm, hp] at hs
      obtain ⟨x, hx, hs⟩ := Option.bind_eq_some_iff.mp hs
      exact R.nested (hb hL) hx (List.mem_of_getElem? hs) hb'
    refine binds_bind hslot fun o ho => ?_
    cases o with
    | none => exact ih
    | some s =>
      refine abides_bind (pushSlot_abides he d index (ho s rfl)) fun r => ?_
      split
      · exact abides_pure _
      · exact ih

theorem evaluateBy_abides {invoke : Invoker} (hi : ∀ c args, (invoke c args).Abides S L) :
    EvaluatesAbiding R S L (evaluateBy eval (performSeen invoke)) := by
  intro b index mark bare prior hb
  have hkind : (kindOf b).Binds S L fun d => d = p.kindOf b := binds_read fun m hm => by rw [hm, hp]
  refine binds_bind hkind fun d hd => ?_
  cases hnative : d.native with
  | none => exact (aside_bind (aside_releasePrior prior) fun _ => aside_pure _).abides
  | some native =>
    refine abides_bind (abides_read _) fun base => abides_bind ?_ fun r => ?_
    · refine abides_bind (aside_pushHidden d index mark prior).abides fun r => ?_
      cases r with
      | error x => exact abides_pure _
      | ok _ =>
        show (pushDeclared eval d b index mark bare).Abides S L
        unfold pushDeclared
        split
        · exact abides_pure _
        · exact abides_bind (abides_read _) fun n => pushSlots_abides hp he hb d index _
    · cases r with
      | error x => exact (aside_bind (aside_truncateOperands base) fun _ => aside_pure _).abides
      | ok _ =>
        refine abides_bind (callNativeBy_abides hi (fun hL => ?_) mark base) fun r => ?_
        · obtain ⟨x, hx⟩ := R.placed (hb hL)
          have hstandard : d.IsStandard := hd ▸ hx.kind
          rw [hp, ← hd]
          split
          · rename_i hret
            exact Option.some.inj (hnative.symm.trans (Definition.returnBlock_of_standard hstandard hret).1)
          · rename_i hret
            exact Definition.goesOn_of_standard hstandard (Bool.eq_false_iff.mpr hret) hnative
        · obtain ⟨v, e⟩ := r
          dsimp only
          split
          · exact abides_bind (aside_release v).abides fun _ => abides_pure _
          · exact abides_pure _

/-! ## The walk -/

variable {c : ChainId} (hc : L = S.depth → R.chains c)
include hc

omit he in
theorem blockAt_binds (i : Nat) : (blockAt c i).Binds S L fun b => L = S.depth → R.blocks b := by
  have hblocks : (blocksOf c).Binds S L fun bs => bs = p.chain c := binds_read fun m hm => by rw [hm, hp]
  refine binds_bind hblocks fun bs hbs => ?_
  split
  · rename_i b hb
    exact binds_pure fun hL => R.listed (hc hL) (hbs ▸ List.mem_of_getElem? hb)
  · exact fun m ms hm hs => hs.shows

theorem reenter_abides (depth : Nat) (cursor : Cursor) (t : BlockType) (opener : Nat) (v : Value) :
    (reenter eval c depth cursor t opener v).Abides S L := by
  refine binds_bind (blockAt_binds hp hc opener) fun b hb => abides_bind (he _ _ _ _ _ hb) fun r => ?_
  refine Aside.abides ?_
  split
  · exact aside_pure _
  · refine aside_bind (aside_read _) fun finished => ?_
    split
    · exact aside_bind (aside_release _) fun _ => aside_pure _
    · split
      · refine aside_bind (aside_release _) fun _ => aside_bind (aside_read _) fun bs => ?_
        split
        · exact aside_bind (aside_badJump c opener) fun _ => aside_pure _
        · exact aside_pure _
      · split
        · exact aside_bind (aside_release _) fun _ => aside_pure _
        · exact aside_pure _

theorem closeWith_abides (depth : Nat) (t : BlockType) (cursor : Cursor) (opener : Nat) (v : Value) :
    (closeWith eval c depth t cursor opener v).Abides S L := by
  unfold closeWith
  split
  · refine Aside.abides (aside_bind (aside_release v) fun _ => ?_)
    split <;> exact aside_pure _
  · exact reenter_abides hp he hc depth cursor t opener v

theorem closeBodyBy_abides (depth : Nat) (cursor : Cursor) (t : BlockType) :
    (closeBodyBy seen eval c depth cursor t).Abides S L := by
  refine abides_bind (abides_read _) fun layer => ?_
  split
  · split
    · exact abides_pure _
    · exact (aside_bind (aside_read _) fun _ => aside_crash _).abides
  · refine abides_bind (aside_takeBody depth layer).abides fun frame => ?_
    exact binds_seen (closeWith_abides hp he hc depth t _ _ _)

theorem redirect_abides (depth : Nat) (cursor : Cursor) (target : Nat) (v : Value) :
    (redirect eval c depth cursor target v).Abides S L := by
  refine binds_bind (blockAt_binds hp hc target) fun b hb => abides_bind (he _ _ _ _ _ hb) fun r => ?_
  refine Aside.abides ?_
  split
  · exact aside_pure _
  · refine aside_bind (aside_read _) fun finished => ?_
    split
    · exact aside_bind (aside_release _) fun _ => aside_pure _
    · exact aside_bind (aside_read _) fun _ => aside_leave c depth cursor target _ _ _

theorem enter_abides (depth : Nat) (cursor : Cursor) {b : BlockId} (hb : L = S.depth → R.blocks b) (t : BlockType)
    (prior : Option Value) : (enter eval c depth cursor b t prior).Abides S L := by
  refine abides_bind (he _ _ _ _ _ hb) fun r => ?_
  split
  · exact abides_pure _
  · refine abides_bind (abides_read _) fun finished => ?_
    split
    · exact (aside_bind (aside_release _) fun _ => aside_pure _).abides
    · split
      · exact (aside_leave c depth _ _ _ _ _).abides
      · refine abides_bind (abides_read _) fun bs => ?_
        dsimp only
        split
        · refine Aside.abides (aside_bind (aside_release _) fun _ => aside_bind (aside_badJump c _) fun _ => ?_)
          exact aside_pure _
        · split
          · exact redirect_abides hp he hc depth _ _ _
          · exact (aside_leave c depth _ _ _ _ _).abides

theorem advanceBy_abides (depth : Nat) (cursor : Cursor) :
    (advanceBy (closeBodyBy seen eval c depth) eval c depth cursor).Abides S L := by
  have hblocks : (blocksOf c).Binds S L fun bs => bs = p.chain c := binds_read fun m hm => by rw [hm, hp]
  refine binds_bind hblocks fun bs hbs => ?_
  split
  · exact abides_pure _
  · rename_i b hb
    have hblock : L = S.depth → R.blocks b := fun hL => R.listed (hc hL) (hbs ▸ List.mem_of_getElem? hb)
    refine abides_bind (abides_read _) fun cancelled => ?_
    split
    · exact abides_pure _
    · refine abides_bind (abides_read _) fun d => abides_bind ?_ fun closed => ?_
      · split
        · exact closeBodyBy_abides hp he hc depth cursor d.type
        · exact abides_pure _
      · rcases closed with turn | ⟨cursor, prior⟩
        · exact abides_pure _
        · simp only [takeUp]
          split
          · exact (aside_passOver depth _ _).abides
          · exact enter_abides hp he hc depth _ hblock _ _

end

/-! ## Invocations -/

def leftWith (f : CallFrame) : Option Error → Except Error Value
  | some e => .error e
  | none => .ok (f.result.getD .nothing)

/-- An invocation begins with a frame of its own and ends without it. -/
theorem invokeWith_tells {walk : ChainId → Nat → Work (Option Error)} {c : ChainId} {args : List Value} {m : Machine}
    {ms : List Machine} {host : Machine → Machine → Prop} {P : Machine → Prop}
    {Q : Except Error Value → List Machine → Machine → Prop} (hm : P m)
    (hw : (walk c (m.exec.calls.length + 1) { m with exec.calls := { args := args } :: m.exec.calls }).Tells host P
      (fun error ms' l => ∃ f fs, l.exec.calls = f :: fs ∧ fs.length = m.exec.calls.length ∧
        ∀ k : Machine, k.program = l.program → k.exec.calls = fs → k.busy = l.busy → Q (leftWith f error) ms' k) ms) :
    (invokeWith walk c args m).Tells host P Q ms := by
  rw [invokeWith_eq]
  show ((pushCall { args := args } >>= _) m).Tells _ _ _ _
  rw [bind_apply]
  unfold pushCall
  split
  · show ((walk c (m.exec.calls.length + 1) >>= _)
      { m with exec.calls := { args := args } :: m.exec.calls }).Tells _ _ _ _
    rw [bind_apply]
    refine hw.bind fun error ms' l hl => ?_
    obtain ⟨f, fs, hc, hlen, hQ⟩ := hl
    have hdepth : m.exec.calls.length + 1 = l.exec.calls.length := by rw [hc, List.length_cons, hlen]
    show ((endCall (m.exec.calls.length + 1) _ >>= _) l).Tells _ _ _ _
    rw [bind_apply, hdepth, endCall_apply hc]
    have hended : ∀ base, (ended base l).exec.calls = fs := fun base => by rw [ended, hc, List.tail_cons]
    cases error with
    | none => exact hQ _ rfl (hended _) rfl
    | some e => exact hQ _ rfl (hended _) rfl
  · exact hm

/-- An invocation above the followed one leaves it as it stands. -/
theorem invokeWith_abides {walk : ChainId → Nat → Work (Option Error)}
    (hw : ∀ c, L + 1 ≠ S.depth → (walk c (L + 1)).Abides S (L + 1)) (c : ChainId) (args : List Value) :
    (invokeWith walk c args).Abides S L := by
  intro m ms hm hs
  obtain ⟨gs, r, rest, ha, hd, hr⟩ := hs.frame
  have hne : L + 1 ≠ S.depth := by
    have := hs.depth_le
    omega
  let k : Machine := { m with exec.calls := { args := args } :: m.exec.calls }
  have hlen : k.exec.calls.length = L + 1 := by rw [List.length_cons, hm]
  have hk : S.Stands ms k := by
    refine ⟨⟨hs.program, (args, none) :: gs, r, rest, ?_, hd, hr⟩, Machine.returning_of_ne (hlen.trans_ne hne)⟩
    rw [List.cons_append, ← ha]
    rfl
  refine invokeWith_tells hs.shows ?_
  rw [hm]
  refine (hw c hne k ms hlen hk).mono fun error ms' l hl => ?_
  obtain ⟨hstands, hl, hbusy, -⟩ := hl
  obtain ⟨gs', r', rest', ha', hd', hr'⟩ := hstands.frame
  have hlen' := congrArg List.length ha'
  rw [Exec.accounts_length, hl, List.length_append, List.length_cons] at hlen'
  cases gs' with
  | nil =>
    rw [List.length_nil] at hlen'
    omega
  | cons g gs' =>
    obtain ⟨f, fs, hc, -, hfs⟩ := List.map_eq_cons_iff.mp ha'
    have hlen'' : fs.length = L := by
      rw [hc, List.length_cons] at hl
      omega
    refine ⟨f, fs, hc, hlen'', fun l' hp' hc' he' => ?_⟩
    have hbusy' : l'.busy = m.busy := he'.trans hbusy
    refine ⟨⟨⟨hp'.trans hstands.program, gs', r', rest', ?_, hd', hr'⟩, ?_⟩, hc' ▸ hlen'', hbusy', trivial⟩
    · rw [Exec.accounts, hc', hfs]
      rfl
    · rw [← hs.idle, Machine.returning, Machine.returning, hc', hlen'', hm, hbusy', hp', hstands.program, hs.program]

section

variable {p : Program} (R : Region p) (hp : S.program = p)
include hp

/-- Evaluations, invocations and walks. -/
theorem seen_abides (n : Nat) : ∀ L,
    EvaluatesAbiding R S L (evaluateSeen n) ∧ (∀ c args, (invokeSeen n c args).Abides S L) ∧
      ∀ c cursor, (L = S.depth → R.chains c) → (walkSeen n c L cursor).Abides S L := by
  induction n with
  | zero =>
    intro L
    refine ⟨fun b index mark bare prior _ m ms _ hs => ?_, fun c args m ms _ hs => ?_,
      fun c cursor _ m ms _ hs => ?_⟩
    · rw [evaluateSeen]
      exact hs.shows
    · rw [invokeSeen]
      exact hs.shows
    · rw [walkSeen]
      exact hs.shows
  | succ n ih =>
    intro L
    obtain ⟨he, hi, hw⟩ := ih L
    refine ⟨?_, fun c args => ?_, fun c cursor hc => ?_⟩
    · rw [evaluateSeen]
      exact evaluateBy_abides hp he hi
    · rw [invokeSeen]
      refine abides_bind (invokeWith_abides (fun c hL => ?_) c args) fun r => binds_seen (abides_pure r)
      exact (ih (L + 1)).2.2 c {} fun h => absurd h hL
    · rw [walkSeen]
      refine binds_seen (abides_bind (advanceBy_abides hp he hc L cursor) fun turn => ?_)
      cases turn with
      | next cursor => exact hw c cursor hc
      | stop error => exact abides_pure error

/-- An invocation of a chain of the region, made while no return block is at work, has its arguments wherever it
    is shown, and ends with a copy of what the last return block in it was given, or with nothing. -/
theorem invokeSeen_tells (n : Nat) {c : ChainId} (hc : R.chains c) {m : Machine} (hm : m.program = p)
    (hd : m.exec.calls.length + 1 = S.depth) (hbusy : ∀ b ∈ m.busy, (p.kindOf b).isReturn = false) :
    (invokeSeen n c S.args m).Tells S.host S.Shows
      (fun r ms k => S.Shows k ∧ (S.Recorded → ∀ v, r = .ok v → v.IsScalar →
        v = ((Machine.returned S.depth ms).map Value.retagged).getD .nothing)) [] := by
  have houtside : ∀ {k : Machine}, k.program = p → k.exec.calls.length = m.exec.calls.length → S.Shows k :=
    fun hk hlen => ⟨hk.trans hp.symm, fun h => by omega⟩
  cases n with
  | zero =>
    rw [invokeSeen]
    exact houtside hm rfl
  | succ n =>
    let k : Machine := { m with exec.calls := { args := S.args } :: m.exec.calls }
    have hidle : k.returning S.depth = false := by
      show (_ && m.busy.any fun b => (m.program.kindOf b).isReturn) = false
      cases hb : m.busy with
      | none => exact Bool.and_false _
      | some b => rw [Option.any_some, hm, hbusy b hb, Bool.and_false]
    have hk : S.Stands [] k :=
      ⟨⟨hm.trans hp.symm, [], none, m.exec.accounts, rfl, by rw [Exec.accounts_length, hd], fun _ => rfl⟩, hidle⟩
    have hinvoke : (invokeWith (fun c depth => walkSeen n c depth {}) c S.args m).Tells S.host S.Shows
        (fun r ms k => k.program = p ∧ k.exec.calls.length = m.exec.calls.length ∧
          (S.Recorded → ∀ v, r = .ok v → v.IsScalar →
            v = ((Machine.returned S.depth ms).map Value.retagged).getD .nothing)) [] := by
      refine invokeWith_tells (houtside hm rfl) ?_
      have hwalk := (seen_abides R hp n (m.exec.calls.length + 1)).2.2 c {} (fun _ => hc) k [] rfl hk
      refine hwalk.mono fun error ms l hl => ?_
      obtain ⟨hstands, hlen, -, -⟩ := hl
      obtain ⟨gs, r, rest, ha, hrest, hr⟩ := hstands.frame
      have hlengths := congrArg List.length ha
      rw [Exec.accounts_length, hlen, List.length_append, List.length_cons] at hlengths
      obtain rfl : gs = [] := List.eq_nil_of_length_eq_zero (by omega)
      obtain ⟨f, fs, hcalls, hf, hfs⟩ := List.map_eq_cons_iff.mp ha
      rw [hcalls, List.length_cons] at hlen
      refine ⟨f, fs, hcalls, by omega, fun k' hp' hc' _ => ⟨?_, ?_, fun hrec v hv hscalar => ?_⟩⟩
      · exact hp'.trans (hstands.program.trans hp)
      · rw [hc']
        omega
      · cases error with
        | some e => cases hv
        | none =>
          cases hv
          obtain rfl : f.result = r := congrArg Prod.snd hf
          exact (hr hrec).eq_retagged hscalar
    rw [invokeSeen]
    show ((invokeWith (fun c depth => walkSeen n c depth {}) c S.args >>= fun r => seen (Pure.pure r)) m).Tells _ _ _ _
    rw [bind_apply]
    -- Once it has ended, the machine is shown in the invocation that it was made from.
    refine hinvoke.bind fun r ms l hl => ⟨houtside hl.1 hl.2.1, fun l' hl' => ⟨?_, fun hrec => ?_⟩⟩
    · obtain ⟨hp', he'⟩ := S.mayResume hl'
      exact houtside (hp'.trans hl.1) (by rw [he', ← hl.2.1])
    · rw [Machine.returned_snoc_of_not ms (Machine.returning_of_ne (by omega))]
      exact hl.2.2 hrec

end

end Work

end BlockEngine
