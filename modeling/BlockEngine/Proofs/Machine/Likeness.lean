/-
  BlockEngine.Proofs.Machine.Likeness — chains that are alike run alike.

  Blocks are alike if they are of one kind and their slots hold the same texts and blocks that are alike.
  A program may have chains that are not alike in the other. A run is followed as far as it calls none of
  them: the interpreter that shuns some chains breaks down where one of them is called, and elsewhere does
  what the interpreter does.

  Proved:
  - `interpreter_like`: beside the interpreter that shuns chains, blocks that are alike evaluate alike, and
    chains of such blocks run alike.
  - `Pairing.Likeness.invoke_alike`: two such chains, each in a program of its own, run alike as long as the
    first run calls none of the chains that are not alike.
-/

import BlockEngine.Proofs.Machine.Twins
import Mathlib.Data.List.Forall2

namespace BlockEngine

open List (Forall₂)

/-! ## Blocks that are alike -/

/-- The slots are alike, where these blocks are. A definition is no operand. -/
structure Slot.Like (S : BlockId → BlockId → Prop) (s s' : Slot) : Prop where
  type : s'.type = s.type
  text : s'.text = s.text
  block : s.type = .block → Option.Rel S s.block s'.block

def Program.slotsOf (p : Program) (b : BlockId) : List Slot :=
  match p.blocks[b]? with
  | some x => x.slots
  | none => []

/-- Blocks of the first program are alike to blocks of the second, and so are all chains but some. A run that
    breaks down where it would call one of those is excused. -/
structure Pairing.Likeness (t : Pairing) (S : BlockId → BlockId → Prop) (shunned : List ChainId) (breach : Fault) :
    Prop where
  kind : ∀ {b b'}, S b b' → t.second.kindOf b' = t.first.kindOf b
  slots : ∀ {b b'}, S b b' → Forall₂ (Slot.Like S) (t.first.slotsOf b) (t.second.slotsOf b')
  chains : ∀ {c}, c ∉ shunned → Forall₂ S (t.first.chain c) (t.second.chain c)
  excused : ∀ {c}, c ∈ shunned → t.excuses breach

theorem forall₂_getElem? {α β : Type} {R : α → β → Prop} {as : List α} {bs : List β} (h : Forall₂ R as bs) (i : Nat) :
    Option.Rel R as[i]? bs[i]? := by
  induction h generalizing i with
  | nil => exact .none
  | cons hab _ ih =>
    cases i with
    | zero => exact .some hab
    | succ i => exact ih i

namespace Work

/-! ## Runs that shun chains -/

section

variable (shunned : List ChainId) (breach : Fault)

def shun (invoke : Invoker) : Invoker := fun c args => if c ∈ shunned then crash breach else invoke c args

mutual

/-- As `evaluate`, shunning chains. -/
def evaluateShunning : Nat → Evaluator
  | 0 => fun _ _ _ _ _ => starve
  | n + 1 => evaluateWith (evaluateShunning n) (shun shunned breach (invokeShunning n))

def invokeShunning : Nat → Invoker
  | 0 => fun _ _ => starve
  | n + 1 => invokeWith fun c depth => walkShunning n c depth {}

def walkShunning : Nat → ChainId → Nat → Cursor → Work (Option Error)
  | 0, _, _, _ => starve
  | n + 1, c, depth, cursor =>
    bind (advance (evaluateShunning n) c depth cursor) fun
      | .next cursor => walkShunning n c depth cursor
      | .stop error => pure error

end

end

/-! ## Evaluations -/

section

variable {α α' : Type} {t : Pairing} {S : BlockId → BlockId → Prop} {shunned : List ChainId} {breach : Fault}

/-- Looking at the program. -/
theorem twins_read {V : α → α' → Prop} {f : Machine → α} {f' : Machine → α'}
    (h : ∀ m k : Machine, m.program = t.first → k.program = t.second → V (f m) (f' k)) :
    Twins t V (read f) (read f') := by
  intro e e' _ m k hmk
  have hk : k.program = t.second := by rw [hmk.eq]; rfl
  exact ⟨f' k, k, rfl, h m k hmk.program hk, hmk⟩

theorem twins_pure {V : α → α' → Prop} {a : α} {a' : α'} (h : V a a') : Twins t V (Pure.pure a) (Pure.pure a') :=
  fun _ _ _ _ k hmk => ⟨a', k, rfl, h, hmk⟩

theorem twins_starve {V : α → α' → Prop} : Twins t V starve starve :=
  fun _ _ hn m k hmk => ⟨k, rfl, hmk.near fun h => by rw [h.1, h.2]; exact hn⟩

theorem aloof_then {β β' : Type} {V : β → β' → Prop} {w : Work α} (hw : Aloof w) {f : α → Work β} {f' : α → Work β'}
    (hf : ∀ a, Twins t V (f a) (f' a)) : Twins t V (w >>= f) (w >>= f') :=
  twins_bind hw.twins fun a a' ha => by rw [← ha]; exact hf a

section

variable (L : t.Likeness S shunned breach) {b b' : BlockId} (hb : S b b')
include L hb

theorem twins_kindOf : Twins t (fun d d' => d = t.first.kindOf b ∧ d' = d) (kindOf b) (kindOf b') :=
  twins_read fun m k hm hk => by rw [hm, hk]; exact ⟨rfl, L.kind hb⟩

theorem twins_slotAt (i : Nat) : Twins t (Option.Rel (Slot.Like S)) (slotAt b i) (slotAt b' i) := by
  have hslot : ∀ (p : Program) (b : BlockId), (do
      let x ← p.blocks[b]?
      x.slots[i]? : Option Slot) = (p.slotsOf b)[i]? := fun p b => by
    unfold Program.slotsOf
    cases p.blocks[b]? <;> rfl
  refine twins_read fun m k hm hk => ?_
  rw [hm, hk, hslot, hslot]
  exact forall₂_getElem? (L.slots hb) i

theorem twins_slotCount : Twins t Eq (slotCount b) (slotCount b') := by
  have hcount : ∀ (p : Program) (b : BlockId),
      (match p.blocks[b]? with | some x => x.slots.length | none => 0) = (p.slotsOf b).length := fun p b => by
    unfold Program.slotsOf
    cases p.blocks[b]? <;> rfl
  refine twins_read fun m k hm hk => ?_
  rw [hm, hk]
  exact (hcount _ b).trans ((L.slots hb).length_eq.trans (hcount _ b').symm)

end

def EvalLike (t : Pairing) (S : BlockId → BlockId → Prop) (eval eval' : Evaluator) : Prop :=
  ∀ b b', S b b' → ∀ index mark bare prior, Twins t Eq (eval b index mark bare prior) (eval' b' index mark bare prior)

/-- Invokers that do the same to all chains but those that the first shuns. -/
def InvokeLike (t : Pairing) (shunned : List ChainId) (invoke invoke' : Invoker) : Prop :=
  ∀ c, c ∉ shunned → ∀ args, Twins t Eq (invoke c args) (invoke' c args)

section

variable {eval eval' : Evaluator} (he : EvalLike t S eval eval') {invoke invoke' : Invoker}
  (hi : InvokeLike t shunned invoke invoke') (L : t.Likeness S shunned breach)

include he in
theorem twins_pushSlot (d : Definition) (index : Int) {s s' : Slot} (hs : s.Like S s') :
    Twins t Eq (pushSlot eval d index s) (pushSlot eval' d index s') := by
  unfold pushSlot
  rw [hs.type, hs.text]
  cases ht : s.type with
  | text | const => exact (aloof_bind (aloof_pushOperand _) fun _ => aloof_pure _).twins
  | definition | unknown => exact twins_pure rfl
  | block =>
    have hblock := hs.block ht
    generalize s.block = o, s'.block = o' at hblock
    dsimp only
    cases hblock with
    | none => exact (aloof_crash _).twins
    | some hcc =>
      refine twins_bind (he _ _ hcc _ _ _ _) fun r r' hr => ?_
      obtain rfl := hr
      rcases r with e | ⟨v, asked⟩
      · exact twins_pure rfl
      · exact aloof_then (aloof_pushOperand _) fun _ => twins_pure rfl

section

variable {b b' : BlockId} (hb : S b b')
include he L hb

theorem twins_pushSlots (d : Definition) (index : Int) (is : List Nat) :
    Twins t Eq (pushSlots eval d b index is) (pushSlots eval' d b' index is) := by
  induction is with
  | nil => exact twins_pure rfl
  | cons i is ih =>
    refine twins_bind (twins_slotAt L hb i) fun x x' hx => ?_
    cases hx with
    | none => exact ih
    | some hlike =>
      refine twins_bind (twins_pushSlot he d index hlike) fun r r' hr => ?_
      obtain rfl := hr
      rcases r with e | -
      · exact twins_pure rfl
      · exact ih

theorem twins_pushOperands (d : Definition) (index : Int) (mark : Marker) (bare : Bool) (prior : Option Value) :
    Twins t Eq (pushOperands eval d b index mark bare prior) (pushOperands eval' d b' index mark bare prior) := by
  refine aloof_then (aloof_pushHidden d index mark prior) fun r => ?_
  rcases r with e | -
  · exact twins_pure rfl
  · unfold pushDeclared
    dsimp only
    split
    · exact twins_pure rfl
    · refine twins_bind (twins_slotCount L hb) fun k k' hk => ?_
      obtain rfl := hk
      exact twins_pushSlots he L hb d index _

end

section

include hi L

theorem beside_call (c : Option ChainId) (args : List Value) :
    Beside t t.AtWork t.AtWork Eq (call (shun shunned breach invoke) c args) (call invoke' c args) := by
  have hnear : ∀ {a b}, t.AtWork a b → Near a b := fun h => h.near
  have hfail : ∀ e : Error, Beside t t.AtWork t.AtWork Eq (fail e) (fail e) := fun e =>
    beside_mapEval (fun _ => rfl) fun _ => rfl
  cases c with
  | none => exact beside_bind (hfail _) fun _ _ _ => (aloof_pure _).beside hnear
  | some c =>
    refine beside_bind ((aloof_onStorage (·.copyAll args)).beside hnear) fun bound bound' hbound => ?_
    obtain rfl := hbound
    have hinvoke : Beside t t.AtWork t.AtWork Eq (shun shunned breach invoke c bound) (invoke' c bound) := by
      unfold shun
      by_cases hc : c ∈ shunned
      · rw [if_pos hc]
        exact fun m k h => .inl (L.excused hc)
      · rw [if_neg hc]
        exact (hi c hc bound).beside hnear
    refine beside_bind hinvoke fun r r' hr => ?_
    obtain rfl := hr
    refine beside_bind ((aloof_modify fun _ _ _ _ => rfl).beside hnear) fun _ _ _ => ?_
    cases r with
    | ok v => exact (aloof_pure _).beside hnear
    | error e => exact beside_bind (hfail e) fun _ _ _ => (aloof_pure _).beside hnear

theorem beside_perform (q : Proc α) :
    Beside t t.AtWork t.AtWork Eq (perform (shun shunned breach invoke) q) (perform invoke' q) := by
  induction q with
  | done a => exact (aloof_pure a).beside fun h => h.near
  | crash f => exact (aloof_crash f).beside fun h => h.near
  | ask r go ih =>
    have hanswer : Beside t t.AtWork t.AtWork Eq (answer (shun shunned breach invoke) r) (answer invoke' r) := by
      by_cases hr : ∃ c args, r = .call c args
      · obtain ⟨c, args, rfl⟩ := hr
        exact beside_call hi L c args
      · exact beside_answer _ _ fun c args h => hr ⟨c, args, h⟩
    refine beside_bind hanswer fun a a' ha => ?_
    obtain rfl := ha
    exact ih a

theorem twins_callNative (native : Native) (s s' : EvalState) (hs : s'.anonymous = s.anonymous)
    (hk : t.second.kindOf s'.block = t.first.kindOf s.block) (mark : Marker) (base : Nat) :
    Twins t (fun r r' => r'.1 = r.1 ∧ r'.2.anonymous = r.2.anonymous)
      (callNative (shun shunned breach invoke) native s mark base) (callNative invoke' native s' mark base) := by
  intro e e' hn
  have hthese : ∀ {a b}, These e e' a b → Near a b := fun h => by rw [h.1, h.2]; exact hn
  refine beside_bind ((aloof_read fun _ _ _ _ => rfl).beside hthese) fun args args' hargs => ?_
  obtain rfl := hargs
  -- What was under way is put back once the native is done.
  have houter : Beside t (These e e') (These e e') (fun a a' => a = e ∧ a' = e') (read (·.exec.eval))
      (read (·.exec.eval)) :=
    fun m k h => ⟨_, k, rfl, h.evals, h⟩
  refine beside_bind houter fun outer outer' ho => ?_
  obtain ⟨rfl, rfl⟩ := ho
  have hbegin : Beside t (These outer outer') t.AtWork Eq
      (modify fun m => { m with exec.eval := some s, journal := ⟨s.block, s.index, mark, args⟩ :: m.journal })
      (modify fun m => { m with exec.eval := some s', journal := ⟨s'.block, s'.index, mark, args⟩ :: m.journal }) := by
    intro m k h
    obtain ⟨x, j, rfl, -⟩ := h.recast
    exact ⟨(), _, rfl, rfl, h.program, ⟨s, s', rfl, rfl, hs, hk⟩, rfl⟩
  refine beside_bind hbegin fun _ _ _ => beside_bind (beside_perform hi L (native args)) fun v v' hv => ?_
  obtain rfl := hv
  have hinner : Beside t t.AtWork t.AtWork t.AtWork (read (·.exec.eval)) (read (·.exec.eval)) :=
    fun m k h => ⟨_, k, rfl, h.evals, h⟩
  refine beside_bind hinner fun inner inner' hin => ?_
  obtain ⟨x, x', rfl, rfl, hx, -⟩ := hin
  have hend : Beside t t.AtWork (These outer outer') Eq (mapExec fun y => { y with eval := outer })
      (mapExec fun y => { y with eval := outer' }) := by
    intro m k h
    obtain ⟨z, j, rfl, -⟩ := h.recast
    exact ⟨(), _, rfl, rfl, h.program, ⟨rfl, rfl⟩, rfl⟩
  refine beside_bind hend fun _ _ _ => beside_bind ((aloof_truncateOperands base).beside hthese) fun _ _ _ => ?_
  exact twins_pure ⟨rfl, hx⟩ outer outer' hn

end

include he hi L in
/-- Blocks that are alike evaluate alike where what they nest and call does. -/
theorem evaluateWith_like :
    EvalLike t S (evaluateWith eval (shun shunned breach invoke)) (evaluateWith eval' invoke') := by
  intro b b' hb index mark bare prior
  unfold evaluateWith
  refine twins_bind (twins_kindOf L hb) fun d d' hd => ?_
  obtain ⟨hd, rfl⟩ := hd
  cases d'.native with
  | none => exact (aloof_bind (aloof_releasePrior prior) fun _ => aloof_pure _).twins
  | some native =>
    dsimp only
    refine aloof_then (aloof_read fun _ _ _ _ => rfl) fun base => ?_
    refine twins_bind (twins_pushOperands he L hb d' index mark bare prior) fun r r' hr => ?_
    obtain rfl := hr
    rcases r with e | -
    · exact (aloof_bind (aloof_truncateOperands base) fun _ => aloof_pure _).twins
    · dsimp only
      have hcall := fun canSkip : Bool => twins_callNative hi L native { block := b, index, canSkip }
        { block := b', index, canSkip } rfl (L.kind hb) mark base
      refine twins_bind (hcall _) fun r r' hr => ?_
      obtain ⟨v, x⟩ := r
      obtain ⟨v', x'⟩ := r'
      obtain ⟨hv, hx⟩ := hr
      dsimp only at hv hx ⊢
      rw [hv, EvalState.eq_of_anonymous hx]
      exact (aloof_report d' index v x).twins

end

/-! ## The walk -/

section

variable (L : t.Likeness S shunned breach) {c c' : ChainId} (hc : Forall₂ S (t.first.chain c) (t.second.chain c'))

section

include hc

theorem twins_blocksOf : Twins t (Forall₂ S) (blocksOf c) (blocksOf c') :=
  twins_read fun m k hm hk => by rw [hm, hk]; exact hc

/-- How many blocks there are is the same in both chains. -/
theorem twins_size : Twins t (fun bs bs' => bs'.length = bs.length) (blocksOf c) (blocksOf c') :=
  twins_read fun m k hm hk => by rw [hm, hk]; exact hc.length_eq.symm

theorem twins_blockAt (i : Nat) : Twins t S (blockAt c i) (blockAt c' i) := by
  refine twins_bind (twins_blocksOf hc) fun bs bs' h => ?_
  have hi := forall₂_getElem? h i
  rw [h.length_eq]
  cases hb : bs[i]? <;> cases hb' : bs'[i]? <;> rw [hb, hb'] at hi <;> cases hi
  case none.none => exact fun e e' hn m k hmk => .inr ⟨k, rfl, hmk.near fun h => by rw [h.1, h.2]; exact hn⟩
  case some.some h => exact twins_pure h

include L

theorem twins_badJump (i : Nat) : Twins t Eq (badJump c i) (badJump c' i) :=
  twins_bind (twins_blockAt hc i) fun b b' hb => twins_bind (twins_kindOf L hb) fun d d' hd => twins_pure (by rw [hd.2])

theorem twins_leave (depth : Nat) (cursor : Cursor) (position target : Nat) (v : Value) (skip : Bool) :
    Twins t Eq (leave c depth cursor position target v skip) (leave c' depth cursor position target v skip) := by
  refine twins_bind (twins_blockAt hc position) fun b b' hb => twins_bind (twins_kindOf L hb) fun d d' hd => ?_
  rw [hd.2]
  split
  · exact (aloof_bind (aloof_openBody depth position v) fun _ => aloof_pure _).twins
  · exact (aloof_bind (aloof_release v) fun _ => aloof_pure _).twins

variable {eval eval' : Evaluator} (he : EvalLike t S eval eval')
include he

theorem reenter_like (depth : Nat) (cursor : Cursor) (k : BlockType) (opener : Nat) (v : Value) :
    Twins t Eq (reenter eval c depth cursor k opener v) (reenter eval' c' depth cursor k opener v) := by
  refine twins_bind (twins_blockAt hc opener) fun b b' hb => twins_bind (he b b' hb _ _ _ _) fun r r' hr => ?_
  obtain rfl := hr
  rcases r with e | ⟨w, asked⟩
  · exact twins_pure rfl
  refine aloof_then (aloof_read fun _ _ _ _ => rfl) fun finished => ?_
  split
  · exact aloof_then (aloof_release w) fun _ => twins_pure rfl
  split
  · refine aloof_then (aloof_release w) fun _ => twins_bind (twins_size hc) fun bs bs' h => ?_
    rw [h]
    split
    · exact twins_bind (twins_badJump L hc opener) fun e e' he => twins_pure (by rw [he])
    · exact twins_pure rfl
  · split
    · exact aloof_then (aloof_release w) fun _ => twins_pure rfl
    · exact twins_pure rfl

theorem closeBody_like (depth : Nat) (cursor : Cursor) (k : BlockType) :
    Twins t Eq (closeBody eval c depth cursor k) (closeBody eval' c' depth cursor k) := by
  rw [closeBody_eq, closeBody_eq]
  refine aloof_then (aloof_read fun _ _ _ _ => rfl) fun layer => ?_
  split
  · split
    · exact twins_pure rfl
    · exact (aloof_bind (aloof_read fun _ _ _ _ => rfl) fun _ => aloof_crash _).twins
  · refine aloof_then (aloof_takeBody depth layer) fun frame => ?_
    dsimp only [closeWith]
    split
    · exact aloof_then (aloof_release _) fun _ => by split <;> exact twins_pure rfl
    · exact reenter_like L hc he depth _ k _ _

theorem redirect_like (depth : Nat) (cursor : Cursor) (target : Nat) (v : Value) :
    Twins t Eq (redirect eval c depth cursor target v) (redirect eval' c' depth cursor target v) := by
  refine twins_bind (twins_blockAt hc target) fun b b' hb => twins_bind (he b b' hb _ _ _ _) fun r r' hr => ?_
  obtain rfl := hr
  rcases r with e | ⟨w, asked⟩
  · exact twins_pure rfl
  refine aloof_then (aloof_read fun _ _ _ _ => rfl) fun finished => ?_
  split
  · exact aloof_then (aloof_release w) fun _ => twins_pure rfl
  · refine twins_bind (twins_size hc) fun bs bs' h => ?_
    rw [h]
    exact twins_leave L hc depth cursor target _ w asked.skip

theorem enter_like {b b' : BlockId} (hb : S b b') (depth : Nat) (cursor : Cursor) (k : BlockType)
    (prior : Option Value) :
    Twins t Eq (enter eval c depth cursor b k prior) (enter eval' c' depth cursor b' k prior) := by
  refine twins_bind (he b b' hb _ _ _ _) fun r r' hr => ?_
  obtain rfl := hr
  rcases r with e | ⟨w, asked⟩
  · exact twins_pure rfl
  refine aloof_then (aloof_read fun _ _ _ _ => rfl) fun finished => ?_
  split
  · exact aloof_then (aloof_release w) fun _ => twins_pure rfl
  split
  · exact twins_leave L hc depth _ _ _ w asked.skip
  · refine twins_bind (twins_size hc) fun bs bs' h => ?_
    rw [h]
    dsimp only
    split
    · exact aloof_then (aloof_release w) fun _ =>
        twins_bind (twins_badJump L hc _) fun e e' he => twins_pure (by rw [he])
    · split
      · exact redirect_like L hc he depth _ _ w
      · exact twins_leave L hc depth _ _ _ w asked.skip

theorem advance_like (depth : Nat) (cursor : Cursor) :
    Twins t Eq (advance eval c depth cursor) (advance eval' c' depth cursor) := by
  rw [advance_eq, advance_eq]
  refine twins_bind (twins_blocksOf hc) fun bs bs' h => ?_
  have hi := forall₂_getElem? h cursor.position
  cases hb : bs[cursor.position]? <;> cases hb' : bs'[cursor.position]? <;> rw [hb, hb'] at hi <;> cases hi
  case none.none => exact twins_pure rfl
  case some.some b b' hbb =>
    refine aloof_then (aloof_read fun _ _ _ _ => rfl) fun cancelled => ?_
    cases cancelled with
    | some cause => exact twins_pure rfl
    | none =>
      refine twins_bind (twins_kindOf L hbb) fun d d' hd => ?_
      rw [hd.2]
      refine twins_bind (V := Eq) ?_ fun closed closed' hclosed => ?_
      · split
        · exact closeBody_like L hc he depth cursor _
        · exact twins_pure rfl
      · obtain rfl := hclosed
        rcases closed with turn | ⟨cursor, prior⟩
        · exact twins_pure rfl
        · simp only [takeUp]
          split
          · exact (aloof_passOver depth cursor _).twins
          · exact enter_like L hc he hbb depth cursor _ prior

end

end

theorem invokeWith_like {walk walk' : ChainId → Nat → Work (Option Error)} {c c' : ChainId}
    (hw : ∀ depth, Twins t Eq (walk c depth) (walk' c' depth)) (args : List Value) :
    Twins t Eq (invokeWith walk c args) (invokeWith walk' c' args) := by
  rw [invokeWith_eq, invokeWith_eq]
  refine aloof_then (aloof_read fun _ _ _ _ => rfl) fun base => aloof_then (aloof_pushCall _) fun _ => ?_
  refine aloof_then (aloof_read fun _ _ _ _ => rfl) fun depth => twins_bind (hw depth) fun error error' h => ?_
  obtain rfl := h
  refine aloof_then (aloof_endCall depth base) fun v => ?_
  cases error with
  | none => exact twins_pure rfl
  | some e => exact aloof_then (aloof_release v) fun _ => twins_pure rfl

/-- Blocks that are alike evaluate alike, and chains of such blocks run alike. -/
theorem interpreter_like (L : t.Likeness S shunned breach) (n : Nat) :
    EvalLike t S (evaluateShunning shunned breach n) (evaluate n) ∧
      (∀ c c', Forall₂ S (t.first.chain c) (t.second.chain c') → ∀ args,
        Twins t Eq (invokeShunning shunned breach n c args) (invoke n c' args)) ∧
      ∀ c c', Forall₂ S (t.first.chain c) (t.second.chain c') → ∀ depth cursor,
        Twins t Eq (walkShunning shunned breach n c depth cursor) (walk n c' depth cursor) := by
  induction n with
  | zero =>
    refine ⟨fun _ _ _ _ _ _ _ => ?_, fun _ _ _ _ => ?_, fun _ _ _ _ _ => ?_⟩
    · rw [evaluateShunning, evaluate]
      exact twins_starve
    · rw [invokeShunning, invoke]
      exact twins_starve
    · rw [walkShunning, walk]
      exact twins_starve
  | succ n ih =>
    obtain ⟨he, hi, hw⟩ := ih
    refine ⟨?_, fun c c' hc args => ?_, fun c c' hc depth cursor => ?_⟩
    · rw [evaluateShunning, evaluate]
      exact evaluateWith_like he (fun c hc args => hi c c (L.chains hc) args) L
    · rw [invokeShunning, invoke]
      exact invokeWith_like (fun depth => hw c c' hc depth {}) args
    · rw [walkShunning, walk]
      refine twins_bind (advance_like L hc he depth cursor) fun turn turn' h => ?_
      obtain rfl := h
      cases turn with
      | next cursor => exact hw c c' hc depth cursor
      | stop error => exact twins_pure rfl

end

end Work

/-! ## Chains that are alike -/

section

variable {α : Type} {p p' : Program} {S : BlockId → BlockId → Prop} {shunned : List ChainId} {breach : Fault}
  {E : Fault → Prop}

def Outcome.Avoids (E : Fault → Prop) (o : Outcome α) : Prop :=
  o.Meets (fun _ _ => True) ⟨fun f _ => ¬E f, fun _ => True, fun _ => True⟩

theorem Outcome.avoids_none (o : Outcome α) : o.Avoids fun _ => False := by
  induction o with
  | done a m => trivial
  | fault f m => exact id
  | starved m => trivial
  | paused m resume ih => exact ⟨trivial, fun k _ => ih k⟩

/-- The run of a chain calls none of the others: there is a fault that it does not break down with, even if
    calling one of them is to break down with it. -/
def Work.Shuns (shunned : List ChainId) (n : Nat) (c : ChainId) (args : List Value) (m : Machine) : Prop :=
  ∃ breach, (invokeShunning shunned breach n c args m).Avoids (· = breach)

theorem Slot.Like.refl (hS : ∀ b, S b b) (s : Slot) : s.Like S s := by
  refine ⟨rfl, rfl, fun _ => ?_⟩
  cases s.block with
  | none => exact .none
  | some b => exact .some (hS b)

theorem forall₂_refl {β : Type} {R : β → β → Prop} (hR : ∀ b, R b b) (bs : List β) : Forall₂ R bs bs :=
  List.forall₂_same.mpr fun b _ => hR b

/-- A program is like itself. -/
theorem Pairing.Likeness.refl (hE : ∀ c ∈ shunned, E breach) : Likeness ⟨p, p, E⟩ Eq shunned breach where
  kind h := by rw [h]
  slots h := by rw [h]; exact forall₂_refl (Slot.Like.refl fun _ => rfl) _
  chains _ := forall₂_refl (fun _ => rfl) _
  excused h := hE _ h

open Work in
/-- Chains of blocks that are alike run alike, if the first run calls none that are not. -/
theorem Pairing.Likeness.invoke_alike (L : Likeness ⟨p, p', E⟩ S shunned breach) {c c' : ChainId}
    (hc : Forall₂ S (p.chain c) (p'.chain c')) {n : Nat} {args : List Value} {m : Machine} (hm : m.program = p)
    (hshun : (invokeShunning shunned breach n c args m).Avoids E) :
    (invoke n c args m).Alike (invoke n c' args { m with program := p' }) := by
  -- both go beside the run that shuns chains
  have R : Likeness ⟨p, p, E⟩ Eq shunned breach := .refl fun _ h => L.excused h
  have hsame := (interpreter_like R n).2.1 c c (forall₂_refl (fun _ => rfl) _) args m.exec.eval m.exec.eval rfl m m
    ⟨hm, ⟨rfl, rfl⟩, by rw [← hm]; rfl⟩
  have hother := (interpreter_like L n).2.1 c c' hc args m.exec.eval m.exec.eval rfl m { m with program := p' }
    ⟨hm, ⟨rfl, rfl⟩, rfl⟩
  exact hsame.alike hother (hshun.mono (fun _ _ => id) (fun _ _ h => ⟨h, h⟩) (fun _ => id) fun _ => id)

end

end BlockEngine
