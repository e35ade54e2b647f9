/-
  BlockEngine.Proofs.Library.Stopping — nothing follows a stop.

  Of programs of standard blocks, calls, placeholders and blocks without code, however these are put
  together: evaluations, invocations and walks echo the ones that break down at the first stop
  (`watched_echoes`). So neither a slot nor a call, a native under way, a body or a loop does anything
  to an error but hand it up.
-/

import BlockEngine.Proofs.Library.Region
import BlockEngine.Proofs.Machine.Called
import BlockEngine.Proofs.Machine.Echo
import BlockEngine.Proofs.Structured.Turn

namespace BlockEngine

/-- Chains of standard blocks, calls, placeholders and blocks without code, with all that they nest and
    call. -/
structure Realm (p : Program) where
  chains : ChainId → Prop
  blocks : BlockId → Prop
  listed : ∀ {c b}, chains c → b ∈ p.chain c → blocks b
  kind : ∀ {b}, blocks b → (p.kindOf b).native = none ∨ (p.kindOf b).IsStandard
  supported : ∀ {b x s}, blocks b → p.blocks[b]? = some x → s ∈ x.slots → s.type ≠ .unknown
  nested : ∀ {b x s b'}, blocks b → p.blocks[b]? = some x → s ∈ x.slots → s.payload = .block b' → blocks b'
  called : ∀ {b c}, blocks b → (p.kindOf b).role = .call → (p.kindOf b).owner = some c → chains c

variable {p : Program}

def Region.realm (R : Region p) : Realm p where
  chains := R.chains
  blocks := R.blocks
  listed := R.listed
  kind h := .inr (R.placed h).choose_spec.kind
  supported {b x s} h hx hs := by
    obtain ⟨y, hy⟩ := R.placed h
    obtain rfl := Option.some.inj (hy.block.symm.trans hx)
    exact (hy.typed s hs).type_ne_unknown
  nested := R.nested
  called := R.called

/-! ## Results of work that was not stopped -/

def IsOk {α : Type} (r : Except Error α) : Prop := ∃ a, r = .ok a

/-- An evaluation ended well, and jumps nowhere but to the position of its block. -/
def EndsWell (index : Int) (r : Except Error (Value × Asked)) : Prop :=
  ∃ v asked, r = .ok (v, asked) ∧ (asked.jump = none ∨ asked.jump = some index.toNat)

/-- An evaluation ended well, or the block failed by itself. -/
def EndsItself (p : Program) (b : BlockId) (index : Int) (r : Except Error (Value × Asked)) : Prop :=
  EndsWell index r ∨ ∃ x, r = .error (.inBlock (p.kindOf b).id index x) ∧ (p.kindOf b).FailsWith x

def Turn.IsFine (turn : Turn) : Prop := ∀ e, turn ≠ .stop (some e)

def Work.Closed.IsFine (position : Nat) : Work.Closed → Prop
  | .over turn => turn.IsFine
  | .onward cursor _ => cursor.position = position

def Turn.IsChecked (turn : Turn) : Prop := turn.IsFine ∨ ∃ cause, turn = .stop (some (.cancelled cause))

namespace Work

variable {m : Machine}

/-! ## Operands -/

section

variable {eval : Evaluator} {eval' : (Stop → Fault) → Evaluator} (he : Settling eval) (G : Realm p)
  (hev : ∀ b m, G.blocks b → m.Works p → (eval b (-1) .opening false none).Echoes p (EndsWell (-1)) .error
    (fun t => eval' t b (-1) .opening false none) m)
include he hev

theorem echoes_pushSlot {s : Slot} (hs : s.type ≠ .unknown) (hnested : ∀ b', s.payload = .block b' → G.blocks b')
    (d : Definition) (index : Int) (hm : m.Works p) :
    (pushSlot eval d index s).Echoes p IsOk .error (fun t => pushSlot (eval' t) d index s) m := by
  have hpush : ∀ (v : Value) {k : Machine}, k.Works p →
      (pushOperand v >>= fun _ => Pure.pure (.ok ())).Echoes p IsOk .error
        (fun _ => pushOperand v >>= fun _ => Pure.pure (.ok ())) k := fun v k hk =>
    echoes_after (swift_pushOperand v) (pushOperand_growing v k hk.calls hk.scopes) fun _ l _ => echoes_refl ⟨(), rfl⟩
  unfold pushSlot
  cases ht : s.type with
  | text | const => exact hpush _ hm
  | definition => exact echoes_refl ⟨(), rfl⟩
  | unknown => exact (hs ht).elim
  | block =>
    cases hb : s.block with
    | none => exact echoes_refl trivial
    | some b' =>
      have hb' := hnested b' (Slot.payload_of_block ht hb)
      refine echoes_bind (hev b' m hb' hm) (he b' _ _ _ _ m hm.calls hm.scopes) ?_ fun s l _ => ⟨l, rfl, rfl⟩
      rintro _ l ⟨v, asked, rfl, -⟩ hl
      exact hpush v (hm.carries hl.1)

theorem echoes_pushSlots {b : BlockId} (hb : G.blocks b) (d : Definition) (index : Int) (is : List Nat)
    (hm : m.Works p) :
    (pushSlots eval d b index is).Echoes p IsOk .error (fun t => pushSlots (eval' t) d b index is) m := by
  induction is generalizing m with
  | nil => exact echoes_refl ⟨(), rfl⟩
  | cons i is ih =>
    refine echoes_after (w := slotAt b i) (Q := fun o k => k = m ∧
      ∀ s, o = some s → s.type ≠ .unknown ∧ ∀ b', s.payload = .block b' → G.blocks b') (E := .swift) (swift_read _)
      ⟨rfl, fun s h => ?_⟩ fun o k hk => ?_
    · obtain ⟨x, hx, hs⟩ := Option.bind_eq_some_iff.mp h
      have hmem := List.mem_of_getElem? hs
      exact ⟨G.supported hb (hm.program ▸ hx) hmem, fun b' => G.nested hb (hm.program ▸ hx) hmem⟩
    · obtain ⟨rfl, hslot⟩ := hk
      cases o with
      | none => exact ih hm
      | some s =>
        obtain ⟨hs, hnested⟩ := hslot s rfl
        refine echoes_bind (echoes_pushSlot he G hev hs hnested d index hm)
          (pushSlot_growing he d index s k hm.calls hm.scopes) ?_ fun s l _ => ⟨l, rfl, rfl⟩
        rintro _ l ⟨-, rfl⟩ hl
        exact ih (hm.carries hl.1)

theorem echoes_pushOperands {b : BlockId} (hb : G.blocks b) {d : Definition}
    (hd : ¬ (d.role = .call ∧ d.owner = none)) (index : Int) (mark : Marker) (bare : Bool) (prior : Option Value)
    (hm : m.Works p) :
    (pushOperands eval d b index mark bare prior).Echoes p IsOk .error
      (fun t => pushOperands (eval' t) d b index mark bare prior) m := by
  simp only [pushOperands_eq hd]
  refine echoes_after (swift_pushAll _) (pushAll_growing _ m hm.calls hm.scopes) fun _ k hk => ?_
  unfold pushDeclared
  split
  · exact echoes_refl ⟨(), rfl⟩
  · refine echoes_after (w := slotCount b) (Q := fun _ l => l = k) (E := .swift) (swift_read _) rfl fun n l hl => ?_
    obtain rfl := hl
    exact echoes_pushSlots he G hev hb d index _ (hm.carries hk.1)

end

/-! ## Natives -/

/-- A native that makes no call does not depend on how calls are run. -/
theorem perform_congr {α : Type} (invoke invoke' : Invoker) {i : Int} {P : Error → Prop} {q : Proc α} {Q : α → Prop}
    (hq : q.Modest i Q) (hP : ∀ e, e.IsBare → P e) (hm : m.AtHome i P) : perform invoke q m = perform invoke' q m := by
  induction q generalizing m with
  | done a => rfl
  | crash f => rfl
  | ask r go ih =>
    have hsame : answer invoke r = answer invoke' r := by
      cases r with
      | call c args => exact hq.elim
      | _ => rfl
    have hrest := answer_modest invoke' hq (fun e _ => hP e) hm
    show (answer invoke r >>= fun reply => perform invoke (go reply)) m =
      (answer invoke' r >>= fun reply => perform invoke' (go reply)) m
    rw [bind_apply, bind_apply, hsame]
    unfold Meets at hrest
    cases hr : answer invoke' r m with
    | done reply k =>
      rw [hr] at hrest
      exact ih reply hrest.1 hrest.2
    | paused k resume =>
      rw [hr] at hrest
      exact hrest.1.elim
    | _ => rfl

/-- A native starts out at home. -/
theorem atHome_begun {P : Error → Prop} {e : EvalState} (hjump : e.jump = none) (herror : e.error = none) {k : Machine}
    (hk : k.exec.eval = some e) : k.AtHome e.index P :=
  ⟨e, hk, rfl, .inl hjump, by simp [herror]⟩

section

variable {native : Native} (hn : native.IsModest) {e : EvalState} (hjump : e.jump = none) (herror : e.error = none)
  (mark : Marker) (base : Nat)
include hn hjump herror

theorem callNative_home {P : Error → Prop} (hP : ∀ x args, x.IsBare → (native args).MayFail x → P x)
    (invoke : Invoker) : (callNative invoke native e mark base).Meets (fun r _ => r.2.Home e.index P) .swift m := by
  simp only [callNative, window, meets_bind, meets_read, meets_modify]
  refine (perform_modest (hn _ _) (fun x => hP x _) (atHome_begun hjump herror rfl)).weaken fun v k hk => ?_
  obtain ⟨s, hs, home⟩ := hk
  simp only [meets_mapExec]
  show (k.exec.eval.getD e).Home e.index P
  rw [hs]
  exact home

theorem callNative_congr (invoke invoke' : Invoker) :
    callNative invoke native e mark base m = callNative invoke' native e mark base m := by
  simp only [callNative, bind_apply, window, read, modify, Outcome.bind]
  rw [perform_congr invoke invoke' (hn _ _) (fun _ _ => trivial) (atHome_begun hjump herror rfl)]

end

/-! ## Evaluation -/

theorem report_home {d : Definition} {index : Int} {r : Value × EvalState} (h : r.2.Home index (d.FailsWith)) :
    (report d index r).Meets
      (fun r _ => EndsWell index r ∨ ∃ x, r = .error (.inBlock d.id index x) ∧ d.FailsWith x) .swift m := by
  unfold report
  cases hx : r.2.error with
  | none =>
    refine .inl ⟨_, _, rfl, ?_⟩
    dsimp only
    split
    · exact h.jump
    · exact .inl rfl
  | some x =>
    have hfails := h.error x hx
    refine .inr ⟨x, ?_, hfails⟩
    rw [hfails.bare.blame_eq]

section

variable {eval : Evaluator} {eval' : (Stop → Fault) → Evaluator} {invoke : Invoker}
  {invoke' : (Stop → Fault) → Invoker} (he : Settling eval) (hi : Restoring invoke) (G : Realm p)
  (hev : ∀ b m, G.blocks b → m.Works p → (eval b (-1) .opening false none).Echoes p (EndsWell (-1)) .error
    (fun t => eval' t b (-1) .opening false none) m)
  (hin : ∀ c args m, G.chains c → m.program = p → m.Scoped →
    (invoke c args).Echoes p IsOk .error (fun t => invoke' t c args) m)

include hi hin in
/-- A call hands up what its chain reports. -/
theorem echoes_call {c : ChainId} (hc : G.chains c) (d : Definition) {e : EvalState} (hjump : e.jump = none)
    (herror : e.error = none) (mark : Marker) {vs os : List Value} (hm : m.Works p)
    (hos : m.exec.operands = vs ++ .ofChain (some c) :: os) :
    (callNative invoke callProcedure e mark os.length >>= report d e.index).Echoes p (EndsWell e.index) .error
      (fun t => callNative (invoke' t) callProcedure e mark os.length >>= report d e.index) m := by
  have hcall : ∀ invoke : Invoker, (callNative invoke callProcedure e mark os.length >>= report d e.index) m = _ :=
    fun invoke => by rw [bind_apply, callNative_call e mark hos, ← bind_apply, Work.bind_assoc]
  have hos' : m.exec.operands = (vs ++ [.ofChain (some c)]) ++ os := by
    rw [hos, List.append_assoc, List.singleton_append]
  refine Echoes.of_apply ?_ (hcall invoke) fun t => hcall (invoke' t)
  refine echoes_bind (hin c _ _ hc hm.program hm.scopes) (hi c _ _ hm.scopes) ?_ fun s k hk => ?_
  · rintro _ k ⟨v, rfl⟩ hk
    obtain ⟨l, hl, -⟩ := afterCall_ok ((m.storage.copyAll (vs.map m.storage.view).reverse).1) m.exec.eval v hk.eval
      (hk.operands.trans hos')
    refine echoes_refl ?_
    unfold Meets
    rw [bind_apply, hl]
    show (report d e.index (v, e)).Meets _ _ l
    unfold report
    rw [herror, hjump]
    refine ⟨v, _, rfl, .inl ?_⟩
    dsimp only
    split <;> rfl
  · obtain ⟨l, hl, hj⟩ := afterCall_error ((m.storage.copyAll (vs.map m.storage.view).reverse).1) m.exec.eval
      (s.error p) hk.eval (hk.operands.trans hos')
    refine ⟨{ l with storage := l.storage.release .nothing }, ?_, hj⟩
    rw [bind_apply, hl, herror]
    show Outcome.done (Except.error ((s.error p).blame d.id e.index)) _ = _
    rw [Stop.blame_error]

theorem dropped_error {vs os : List Value} (hm : m.exec.operands = vs ++ os) (e : Error) :
    ∃ k, (truncateOperands os.length >>= fun _ => return (.error e : Except Error (Value × Asked))) m =
      .done (.error e) k ∧ k.journal = m.journal := by
  rw [bind_apply, truncateOperands_append hm]
  exact ⟨_, rfl, rfl⟩

include he hev in
/-- An evaluation echoes the other if it does so once the operands are there. -/
theorem echoes_native {b : BlockId} {f : Native} {index : Int} {mark : Marker} {bare : Bool} {prior : Option Value}
    {Q : Except Error Unit → Machine → Prop} {E : Exits} (hb : G.blocks b) (hm : m.Works p)
    (hf : (p.kindOf b).native = some f) (hlinked : ¬ ((p.kindOf b).role = .call ∧ (p.kindOf b).owner = none))
    (hQ : (pushOperands eval (p.kindOf b) b index mark bare prior).Meets Q E m)
    (hrest : ∀ e : EvalState, e.index = index → e.jump = none → e.error = none → ∀ k, Q (.ok ()) k → k.Works p →
      (callNative invoke f e mark m.exec.operands.length >>= report (p.kindOf b) index).Echoes p
        (EndsItself p b index) .error
        (fun t => callNative (invoke' t) f e mark m.exec.operands.length >>= report (p.kindOf b) index) k) :
    (evaluateWith eval invoke b index mark bare prior).Echoes p (EndsItself p b index) .error
      (fun t => evaluateWith (eval' t) (invoke' t) b index mark bare prior) m := by
  obtain rfl := hm.program
  refine Echoes.of_apply ?_ (evaluateWith_native hf _ _ index mark bare prior)
    fun t => evaluateWith_native hf _ _ index mark bare prior
  refine echoes_bind (echoes_pushOperands he G hev hb hlinked index mark bare prior hm)
    (Outcome.Meets.both hQ (pushOperands_growing he _ b index mark bare prior m hm.calls hm.scopes)) ?_ fun s k hk => ?_
  · rintro _ k ⟨⟨⟩, rfl⟩ hk
    exact hrest _ rfl rfl rfl k hk.1 (hm.carries hk.2.1)
  · obtain ⟨vs, hvs⟩ := hk.2.2.2
    exact dropped_error hvs.symm _

include he hi hev hin in
/-- An evaluation echoes the one that is stopped first; the block may also fail by itself. -/
theorem evaluateWith_echoes {b : BlockId} (hb : G.blocks b) (index : Int) (mark : Marker) (bare : Bool)
    (prior : Option Value) (hm : m.Works p) :
    (evaluateWith eval invoke b index mark bare prior).Echoes p (EndsItself p b index) .error
      (fun t => evaluateWith (eval' t) (invoke' t) b index mark bare prior) m := by
  have hatonce : ∀ {x : Error}, (p.kindOf b).FailsWith x →
      (∀ eval invoke, evaluateWith eval invoke b index mark bare prior m =
        .done (.error (.inBlock (p.kindOf b).id index x))
          { m with storage := prior.elim id Storage.release m.storage }) →
      (evaluateWith eval invoke b index mark bare prior).Echoes p (EndsItself p b index) .error
        (fun t => evaluateWith (eval' t) (invoke' t) b index mark bare prior) m := fun {x} hx h => by
    unfold Echoes
    simp only [h]
    exact .inl ⟨.inr ⟨x, rfl, hx⟩, fun _ => rfl⟩
  have hkind : m.program.kindOf b = p.kindOf b := congrArg (·.kindOf b) hm.program
  rcases G.kind hb with hnone | hstandard
  · refine hatonce (.noNative hnone) fun eval invoke => ?_
    rw [← hkind] at hnone ⊢
    exact evaluateWith_noNative index mark bare prior hnone eval invoke
  rcases Definition.modest_of_standard hstandard with ⟨hcall, hf⟩ | ⟨hcall, f, hf, hmodest⟩
  · cases howner : (p.kindOf b).owner with
    | none =>
      refine hatonce (.unlinked hcall howner) fun eval invoke => ?_
      rw [← hkind] at hcall hf howner ⊢
      exact evaluateWith_unlinked index mark bare prior hcall hf howner eval invoke
    | some c =>
      have hpushed := pushCalled_meets he (p.kindOf b) c b index mark bare prior hm.calls hm.scopes
      rw [← pushOperands_linked hcall howner eval b index] at hpushed
      refine echoes_native he G hev hb hm hf (linked_of_owner howner) hpushed fun e hindex hjump herror k hk hworks => ?_
      obtain ⟨vs, hvs⟩ := hk
      subst hindex
      refine (echoes_call hi G hin (G.called hb hcall howner) (p.kindOf b) hjump herror mark hworks hvs).mono ?_
      exact fun r hr => .inl hr
  · refine echoes_native he G hev hb hm hf (fun h => hcall h.1)
      (pushOperands_growing he _ b index mark bare prior m hm.calls hm.scopes) fun e hindex hjump herror k _ hworks => ?_
    subst hindex
    have hsame : ∀ t, (callNative (invoke' t) f e mark m.exec.operands.length >>= report (p.kindOf b) e.index) k =
        (callNative invoke f e mark m.exec.operands.length >>= report (p.kindOf b) e.index) k := fun t => by
      rw [bind_apply, bind_apply, callNative_congr hmodest hjump herror mark _ (invoke' t) invoke]
    refine Echoes.of_apply (echoes_refl ?_) rfl hsame
    rw [meets_bind]
    have hfails : ∀ x args, x.IsBare → (f args).MayFail x → (p.kindOf b).FailsWith x := fun x args hbare hfail =>
      .failed hf hfail hbare
    exact (callNative_home hmodest hjump herror mark _ hfails invoke).weaken fun r l hr => report_home hr

end

/-! ## The walk -/

theorem fine_next (cursor : Cursor) : (Turn.next cursor).IsFine := nofun

theorem fine_ended : (Turn.stop none).IsFine := nofun

theorem meets_read_bind {α β : Type} {Q : β → Machine → Prop} {E : Exits} (g : Machine → α) {f : α → Work β}
    (h : ∀ a, (f a).Meets Q E m) : (read g >>= f).Meets Q E m := h _

theorem leave_fine (c : ChainId) (depth : Nat) (cursor : Cursor) (position target : Nat) (v : Value) (skip : Bool)
    (m : Machine) : (leave c depth cursor position target v skip).Meets (fun turn _ => turn.IsFine) .swift m := by
  refine (swift_blockAt c position).then fun b k => (swift_read _).then fun d k => ?_
  split
  · exact (swift_openBody depth position v).then fun _ _ => fine_next _
  · exact (swift_modify _).then fun _ _ => fine_next _

theorem passOver_fine (depth : Nat) (cursor : Cursor) (t : BlockType) (m : Machine) :
    (passOver depth cursor t).Meets (fun turn _ => turn.IsFine) .swift m := by
  unfold passOver
  split
  · exact (swift_openBody depth _ _).then fun _ _ => fine_next _
  · exact fine_next _

theorem blockAt_stands {c : ChainId} (hp : m.program = p) (i : Nat) :
    (blockAt c i).Meets (fun b k => k = m ∧ (p.chain c)[i]? = some b) .swift m := by
  rw [meets_blockAt, hp]
  cases (p.chain c)[i]? with
  | none => trivial
  | some b => exact ⟨rfl, rfl⟩

section

variable {eval : Evaluator} {eval' : (Stop → Fault) → Evaluator} (he : Settling eval) {m₀ : Machine}
  (hs : m₀.Scoped) (hp : m₀.program = p) {args : List Value} {c : ChainId}
  (hev : ∀ {b : BlockId} {i : Nat} (mark : Marker) (bare : Bool) (prior : Option Value) {k : Machine},
    (p.chain c)[i]? = some b → m₀.Underway args k →
    (eval b i mark bare prior).Echoes p (EndsWell i) .error (fun t => eval' t b i mark bare prior) k)
include he hs hp hev

/-- Re-entering the opener of a body. -/
theorem echoes_reenter (hm : m₀.Underway args m) (cursor : Cursor) (t : BlockType) (opener : Nat) (v : Value) :
    (reenter eval c (m₀.exec.calls.length + 1) cursor t opener v).Echoes p (Closed.IsFine cursor.position)
      (fun e => .over (.stop (some e)))
      (fun t' => reenter (eval' t') c (m₀.exec.calls.length + 1) cursor t opener v) m := by
  refine echoes_after (swift_blockAt c opener) (blockAt_stands (hm.program.trans hp) opener) ?_
  rintro b _ ⟨rfl, hb⟩
  refine echoes_bind (hev .closing true (some v) hb hm) (goesOn_eval he hs hm b opener .closing true (some v)) ?_
    fun s l _ => ⟨l, rfl, rfl⟩
  rintro _ k ⟨v, asked, rfl, hjump⟩ hk
  have hsize : opener < (k.program.chain c).length := by
    rw [hk.program, hp]
    exact (List.getElem?_eq_some_iff.mp hb).1
  refine echoes_refl (meets_read_bind _ fun finished => ?_)
  split
  · exact fine_ended
  rcases hjump with hjump | hjump
  · rw [hjump]
    dsimp only
    split
    · exact fine_next _
    · exact rfl
  · rw [hjump, Int.toNat_natCast]
    simp only [blocksOf, meets_bind, meets_release, meets_read]
    rw [if_neg (Nat.not_lt.mpr (Nat.le_of_lt hsize))]
    exact fine_next _

theorem echoes_closeWith (hm : m₀.Underway args m) (t : BlockType) (cursor : Cursor) (opener : Nat) (v : Value) :
    (closeWith eval c (m₀.exec.calls.length + 1) t cursor opener v).Echoes p (Closed.IsFine cursor.position)
      (fun e => .over (.stop (some e)))
      (fun t' => closeWith (eval' t') c (m₀.exec.calls.length + 1) t cursor opener v) m := by
  unfold closeWith
  split
  · refine echoes_refl ((swift_modify _).then fun _ k => ?_)
    split
    · exact fine_next _
    · exact rfl
  · exact echoes_reenter he hs hp hev hm cursor t opener v

theorem echoes_closeBody (hm : m₀.Underway args m) (cursor : Cursor) (t : BlockType) :
    (closeBody eval c (m₀.exec.calls.length + 1) cursor t).Echoes p (Closed.IsFine cursor.position)
      (fun e => .over (.stop (some e)))
      (fun t' => closeBody (eval' t') c (m₀.exec.calls.length + 1) cursor t) m := by
  simp only [closeBody_eq]
  have hlayer : (layerAt (m₀.exec.calls.length + 1)).Meets (fun layer k => k = m ∧ layer = m.exec.layer) .swift m :=
    (meets_layerAt hm.calls_length hm.calls_ne).mpr ⟨rfl, rfl⟩
  refine echoes_after (swift_read _) hlayer fun layer k ⟨hk, hlayer⟩ => ?_
  subst hk hlayer
  split
  · refine echoes_refl ?_
    split
    · exact fine_next _
    · exact (swift_read _).then fun _ _ => trivial
  · refine echoes_after (swift_takeBody _ _) (goesOn_takeBody hs hm) fun frame k hk => ?_
    have hposition : ∀ layer, (cursor.closedTo layer).position = cursor.position := fun layer => by
      unfold Cursor.closedTo
      split <;> rfl
    rw [← hposition]
    exact echoes_closeWith he hs hp hev hk t _ _ _

/-- Entering another branch of a group. -/
theorem echoes_redirect (hm : m₀.Underway args m) (cursor : Cursor) (target : Nat) (v : Value) :
    (redirect eval c (m₀.exec.calls.length + 1) cursor target v).Echoes p Turn.IsFine (fun e => .stop (some e))
      (fun t' => redirect (eval' t') c (m₀.exec.calls.length + 1) cursor target v) m := by
  refine echoes_after (swift_blockAt c target) (blockAt_stands (hm.program.trans hp) target) ?_
  rintro b _ ⟨rfl, hb⟩
  refine echoes_bind (hev .opening false (some v) hb hm) (goesOn_eval he hs hm b target .opening false (some v)) ?_
    fun s l _ => ⟨l, rfl, rfl⟩
  rintro _ k ⟨v, asked, rfl, -⟩ hk
  refine echoes_refl (meets_read_bind _ fun finished => ?_)
  split
  · exact fine_ended
  · exact meets_read_bind _ fun bs => leave_fine _ _ _ _ _ _ _ _

/-- Entering the block at the cursor. -/
theorem echoes_enter (hm : m₀.Underway args m) (cursor : Cursor) {b : BlockId}
    (hb : (p.chain c)[cursor.position]? = some b) (t : BlockType) (prior : Option Value) :
    (enter eval c (m₀.exec.calls.length + 1) cursor b t prior).Echoes p Turn.IsFine (fun e => .stop (some e))
      (fun t' => enter (eval' t') c (m₀.exec.calls.length + 1) cursor b t prior) m := by
  refine echoes_bind (hev .opening _ prior hb hm) (goesOn_eval he hs hm b cursor.position .opening _ prior) ?_
    fun s l _ => ⟨l, rfl, rfl⟩
  rintro _ k ⟨v, asked, rfl, hjump⟩ hk
  have hsize : cursor.position < (k.program.chain c).length := by
    rw [hk.program, hp]
    exact (List.getElem?_eq_some_iff.mp hb).1
  refine echoes_any _ fun finished => ?_
  cases finished with
  | true => exact echoes_refl fine_ended
  | false =>
    rcases hjump with hjump | hjump
    · rw [hjump]
      exact echoes_refl (leave_fine _ _ _ _ _ _ _ _)
    · rw [hjump, Int.toNat_natCast]
      refine echoes_read (·.program.chain c) ?_
      have hin : ¬ (k.program.chain c).length < cursor.position := Nat.not_lt.mpr (Nat.le_of_lt hsize)
      simp only [if_neg hin]
      split
      · exact echoes_redirect he hs hp hev hk _ _ _
      · exact echoes_refl (leave_fine _ _ _ _ _ _ _ _)

theorem echoes_takeUp (hm : m₀.Underway args m) {position : Nat} {b : BlockId}
    (hb : (p.chain c)[position]? = some b) (t : BlockType) {closed : Closed} (hclosed : closed.IsFine position) :
    (takeUp eval c (m₀.exec.calls.length + 1) b t closed).Echoes p Turn.IsFine (fun e => .stop (some e))
      (fun t' => takeUp (eval' t') c (m₀.exec.calls.length + 1) b t closed) m := by
  rcases closed with turn | ⟨cursor, prior⟩
  · exact echoes_refl hclosed
  · obtain rfl : cursor.position = position := hclosed
    simp only [takeUp]
    split
    · exact echoes_refl (passOver_fine _ _ _ _)
    · exact echoes_enter he hs hp hev hm cursor hb t prior

/-- A turn of the walk. -/
theorem echoes_advance (hm : m₀.Underway args m) (cursor : Cursor) :
    (advance eval c (m₀.exec.calls.length + 1) cursor).Echoes p Turn.IsChecked (fun e => .stop (some e))
      (fun t => advance (eval' t) c (m₀.exec.calls.length + 1) cursor) m := by
  simp only [advance_eq]
  refine echoes_read (·.program.chain c) ?_
  rw [hm.program, hp]
  rcases hb : (p.chain c)[cursor.position]? with - | b
  · exact echoes_refl (.inl fine_ended)
  refine echoes_read (·.exec.cancelled) ?_
  rcases m.exec.cancelled with - | cause
  · refine echoes_read (·.program.kindOf b) ?_
    have hclosed : (if (m.program.kindOf b).type.closes then
          closeBody eval c (m₀.exec.calls.length + 1) cursor (m.program.kindOf b).type
        else pure (.onward cursor none)).Echoes p (Closed.IsFine cursor.position) (fun e => .over (.stop (some e)))
          (fun t => if (m.program.kindOf b).type.closes then
              closeBody (eval' t) c (m₀.exec.calls.length + 1) cursor (m.program.kindOf b).type
            else pure (.onward cursor none)) m := by
      split
      · exact echoes_closeBody he hs hp hev hm cursor _
      · exact echoes_refl rfl
    have hunderway : GoesOn m₀ args (if (m.program.kindOf b).type.closes then
          closeBody eval c (m₀.exec.calls.length + 1) cursor (m.program.kindOf b).type
        else pure (.onward cursor none)) m := by
      split
      · exact goesOn_closeBody he hs hm c cursor _
      · exact hm
    refine echoes_bind hclosed hunderway (fun closed k hfine hk => ?_) fun s k _ => ⟨k, rfl, rfl⟩
    exact (echoes_takeUp he hs hp hev hk hb _ hfine).mono fun _ => .inl
  · exact echoes_refl (.inr ⟨cause, rfl⟩)

end

/-! ## Invocations -/

theorem echoes_invokeWith {walk : ChainId → Nat → Work (Option Error)}
    {walk' : (Stop → Fault) → ChainId → Nat → Work (Option Error)} (hw : Walking walk) {c : ChainId}
    {args : List Value} (hs : m.Scoped)
    (hwalk : ∀ k, m.Underway args k → (walk c (m.exec.calls.length + 1)).Echoes p (· = none) some
      (fun t => walk' t c (m.exec.calls.length + 1)) k) :
    (invokeWith walk c args).Echoes p IsOk .error (fun t => invokeWith (walk' t) c args) m := by
  simp only [invokeWith_eq]
  refine echoes_read (·.exec.control.length) ?_
  have hpush : (pushCall { args := args }).Meets
      (fun _ k => k = { m with exec.calls := { args := args } :: m.exec.calls }) .swift m := by
    rw [meets_pushCall]
    split
    · rfl
    · trivial
  have hswift : (pushCall { args := args }).Swift := fun k => by
    rw [meets_pushCall]
    split <;> trivial
  refine echoes_after hswift hpush fun _ k hk => ?_
  subst hk
  have hbegun := Machine.Underway.begun m args
  refine echoes_read (·.exec.calls.length) ?_
  have hend : ∀ {k : Machine}, m.Underway args k →
      ∃ v, endCall (m.exec.calls.length + 1) m.exec.control.length k = .done v (ended m.exec.control.length k) := by
    intro k hk
    obtain ⟨f, hf, -⟩ := hk.frame
    rw [← hk.calls_length]
    exact ⟨_, endCall_apply hf _⟩
  refine echoes_bind (hwalk _ hbegun) (hw c m args _ hs hbegun) ?_ fun s k hk => ?_
  · rintro _ k rfl hk
    obtain ⟨v, hv⟩ := hend hk
    refine echoes_refl ?_
    unfold Meets
    rw [bind_apply]
    show Outcome.Meets _ _ ((endCall (m.exec.calls.length + 1) m.exec.control.length k).bind _)
    rw [hv]
    exact ⟨v, rfl⟩
  · obtain ⟨v, hv⟩ := hend hk
    rw [bind_apply]
    show ∃ l, (endCall (m.exec.calls.length + 1) m.exec.control.length k).bind _ = _ ∧ _
    rw [hv]
    exact ⟨_, rfl, rfl⟩

theorem echoes_await {α : Type} {fine : α → Prop} {raise : Error → α} {work : Work α} {work' : (Stop → Fault) → Work α}
    {m₀ : Machine} {args : List Value} (wait : Bool) {c : ChainId} {cursor : Cursor} (hm : m₀.Underway args m)
    (hwork : ∀ k, m₀.Underway args k → work.Echoes p fine raise work' k)
    (hstop : ∀ k cause, cursor.position < (k.program.chain c).length → k.exec.cancelled = some cause →
      ∀ t, work' t k = .fault (t (.cancelled cause)) k) :
    (await ⟨wait, none⟩ c cursor work).Echoes p fine raise (fun t => await ⟨wait, some t⟩ c cursor (work' t)) m := by
  unfold Echoes await
  dsimp only
  split
  next hwait =>
    have hin : cursor.position < (m.program.chain c).length := of_decide_eq_true (Bool.and_eq_true_iff.mp hwait).2
    refine ⟨work', fun t => rfl, fun k hk => ⟨?_, fun cause hc t => ?_⟩⟩
    · exact hwork k (hm.of_eq hk.1 (by rw [hk.2]))
    · exact hstop k cause (by rwa [hk.1]) hc t
  next => exact hwork m hm

/-- Evaluations, invocations and walks, watched, echo those that break down where they are stopped first. -/
theorem watched_echoes (wait : Bool) (G : Realm p) (n : Nat) :
    (∀ chain b index mark bare prior m, G.blocks b → p.Stands b chain index → m.Works p →
      (evaluateWatched ⟨wait, none⟩ n chain b index mark bare prior).Echoes p (EndsWell index) .error
        (fun t => evaluateWatched ⟨wait, some t⟩ n chain b index mark bare prior) m) ∧
    (∀ c args m, G.chains c → m.program = p → m.Scoped →
      (invokeWatched ⟨wait, none⟩ n c args).Echoes p IsOk .error (fun t => invokeWatched ⟨wait, some t⟩ n c args) m) ∧
    ∀ c cursor (m₀ : Machine) args m, G.chains c → m₀.program = p → m₀.Scoped → m₀.Underway args m →
      (walkWatched ⟨wait, none⟩ n c (m₀.exec.calls.length + 1) cursor).Echoes p (· = none) some
        (fun t => walkWatched ⟨wait, some t⟩ n c (m₀.exec.calls.length + 1) cursor) m := by
  induction n with
  | zero =>
    refine ⟨fun chain b index mark bare prior m _ _ _ => ?_, fun c args m _ _ _ => ?_, fun c cursor m₀ args m _ _ _ _ => ?_⟩
    · simp only [evaluateWatched]
      exact fun _ => rfl
    · simp only [invokeWatched]
      exact fun _ => rfl
    · simp only [walkWatched]
      exact fun _ => rfl
  | succ n ih =>
    obtain ⟨he, hi, hw⟩ := ih
    obtain ⟨hsettling, hrestoring, hwalking⟩ := watched_keeps_scopes ⟨wait, none⟩ n
    refine ⟨fun chain b index mark bare prior m hb hstands hm => ?_, fun c args m hc hp hs => ?_,
      fun c cursor m₀ args m hc hp hs hm => ?_⟩
    · simp only [evaluateWatched]
      have hnested : ∀ b m, G.blocks b → m.Works p →
          (evaluateWatched ⟨wait, none⟩ n none b (-1) .opening false none).Echoes p (EndsWell (-1)) .error
            (fun t => evaluateWatched ⟨wait, some t⟩ n none b (-1) .opening false none) m := fun b m hb hm =>
        he none b (-1) .opening false none m hb rfl hm
      refine echoes_bind (evaluateWith_echoes (hsettling none) hrestoring G hnested hi hb index mark bare prior hm)
        (evaluateWith_settling (hsettling none) hrestoring b index mark bare prior m hm.calls hm.scopes) ?_
        fun s k _ => ⟨k, rfl, rfl⟩
      rintro _ k (⟨v, asked, rfl, hjump⟩ | ⟨x, rfl, hx⟩) -
      · exact echoes_refl ⟨v, asked, rfl, hjump⟩
      · -- The block failed by itself: this is the stop.
        refine .inr ⟨.block b chain index x, k, ⟨hstands, hx⟩, rfl, rfl, fun t => ?_⟩
        show Outcome.fault (t (.block b chain index x.root)) k = _
        rw [hx.bare.root_eq]
    · simp only [invokeWatched]
      exact echoes_invokeWith (hwalking {}) hs fun k hk => hw c {} m args k hc hp hs hk
    · simp only [walkWatched]
      refine echoes_await wait hm (fun k hk => ?_) fun k cause hin hcancelled t => ?_
      · have hev : ∀ {b : BlockId} {i : Nat} (mark : Marker) (bare : Bool) (prior : Option Value) {k : Machine},
            (p.chain c)[i]? = some b → m₀.Underway args k →
            (evaluateWatched ⟨wait, none⟩ n (some c) b i mark bare prior).Echoes p (EndsWell i) .error
              (fun t => evaluateWatched ⟨wait, some t⟩ n (some c) b i mark bare prior) k :=
          fun {b i} mark bare prior {k} hb hk =>
            he (some c) b i mark bare prior k (G.listed hc (List.mem_of_getElem? hb)) ⟨i, rfl, hb⟩ (hk.works hs hp)
        refine echoes_bind (echoes_advance (hsettling (some c)) hs hp hev hk cursor)
          (goesOn_advance (hsettling (some c)) hs hk c cursor) ?_ fun s k _ => ⟨k, ?_, rfl⟩
        · rintro turn k hfine hk
          rcases turn with cursor | - | e
          · exact hw c cursor m₀ args k hc hp hs hk
          · exact echoes_refl rfl
          · rcases hfine with hfine | ⟨cause, ⟨⟩⟩
            · exact absurd rfl (hfine e)
            · exact .inr ⟨.cancelled cause, k, trivial, rfl, rfl, fun t => rfl⟩
        · cases s <;> rfl
      · rw [bind_apply, advance_cancelled (List.getElem?_eq_getElem hin) hcancelled]
        rfl

end Work

end BlockEngine
