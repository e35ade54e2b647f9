/-
  BlockEngine.Proofs.Library.Arguments — what a call does before its chain is run.

  The slots of a call are evaluated one after the other, the first one first, each in the invocation that
  the call stands in, and each from where the one before it left off (`Work.Delivers`). Once they have
  yielded their values, the chain is about to be run on copies of these (`Work.Calls`).

  Proved, of calls in a region on machines that hold nothing but scalars:
  - a call then runs its chain, and that is the only chain that it runs (`evaluateWith_of_calls`);
  - where its slots do not all yield a value it runs none (`evaluateWith_of_not_calls`);
  - it evaluates to a value exactly where the chain comes to it (`evaluate_call_iff`).
-/

import BlockEngine.Proofs.Library.Readiness
import BlockEngine.Proofs.Machine.Called
import BlockEngine.Proofs.Machine.Frames

namespace BlockEngine.Work

variable {α β : Type}

/-- Work comes to a result only by way of one of its first part. -/
theorem bind_eq_done {w : Work α} {f : α → Work β} {m l : Machine} {b : β} :
    (w >>= f) m = .done b l ↔ ∃ a k, w m = .done a k ∧ f a k = .done b l := by
  rw [bind_apply]
  constructor
  · intro h
    cases hw : w m with
    | done a k =>
      rw [hw] at h
      exact ⟨a, k, rfl, h⟩
    | _ =>
      rw [hw] at h
      cases h
  · rintro ⟨a, k, hw, h⟩
    rw [hw]
    exact h

/-! ## Arguments -/

/-- What slots hold yields some values, one after the other, and pushes them. Blocks are evaluated in the invocation
    that has these frames. A definition yields nothing. -/
inductive Delivers (eval : Evaluator) (frames : List CallFrame) : List Payload → Machine → List Value → Machine → Prop
  | nil (m : Machine) : Delivers eval frames [] m [] m
  | text {t : Text} {ps : List Payload} {m k l : Machine} {vs : List Value} :
      pushOperand (.ofText t) m = .done () k → Delivers eval frames ps k vs l →
      Delivers eval frames (.text t :: ps) m (.ofText t :: vs) l
  | const {t : Text} {ps : List Payload} {m k l : Machine} {vs : List Value} :
      pushOperand (.ofText t) m = .done () k → Delivers eval frames ps k vs l →
      Delivers eval frames (.const t :: ps) m (.ofText t :: vs) l
  | definition {h : Handle} {ps : List Payload} {m l : Machine} {vs : List Value} :
      Delivers eval frames ps m vs l → Delivers eval frames (.definition h :: ps) m vs l
  | block {b : BlockId} {ps : List Payload} {m k k' l : Machine} {v : Value} {asked : Asked} {vs : List Value} :
      SameFrames frames m.exec.calls → eval b (-1) .opening false none m = .done (.ok (v, asked)) k →
      pushOperand v k = .done () k' → Delivers eval frames ps k' vs l →
      Delivers eval frames (.block b :: ps) m (v :: vs) l

/-- Work beside what was going on has put some scalars on top of the operands. -/
structure Adds (p : Program) (m : Machine) (vs : List Value) (k : Machine) : Prop where
  ready : k.Ready p True
  frames : SameFrames m.exec.calls k.exec.calls
  operands : k.exec.operands = vs.reverse ++ m.exec.operands
  eval : k.exec.eval = m.exec.eval
  scalars : ∀ v ∈ vs, v.IsScalar

theorem Adds.refl {p : Program} {m : Machine} (hm : m.Ready p True) : Adds p m [] m :=
  ⟨hm, .refl _, rfl, rfl, fun _ h => absurd h List.not_mem_nil⟩

theorem Adds.trans {p : Program} {m k l : Machine} {vs ws : List Value} (h : Adds p m vs k) (h' : Adds p k ws l) :
    Adds p m (vs ++ ws) l := by
  refine ⟨h'.ready, h.frames.trans h'.frames, ?_, h'.eval.trans h.eval, fun v hv => ?_⟩
  · rw [h'.operands, h.operands, List.reverse_append, List.append_assoc]
  · rcases List.mem_append.mp hv with hv | hv
    · exact h.scalars v hv
    · exact h'.scalars v hv

theorem adds_pushOperand {p : Program} {m k : Machine} {v : Value} (hm : m.Ready p True) (hv : v.IsScalar)
    (h : pushOperand v m = .done () k) : Adds p m [v] k := by
  unfold pushOperand at h
  split at h
  · cases h
    have hpl := hm.plain trivial
    refine ⟨⟨hm.calls_ne, hm.toScoped, hm.program, fun _ => ?_⟩, .refl _, rfl, rfl, List.forall_mem_singleton.mpr hv⟩
    exact ⟨List.forall_mem_cons.mpr ⟨hv, hpl.operands⟩, hpl.control, hpl.bindings, hpl.args, hpl.results⟩
  · cases h

section

variable {p : Program} {R : Region p} {eval : Evaluator} (he : EvaluatesWell R True True False eval) (hse : Settling eval)
include he hse

/-- A block in an argument yields a scalar and leaves the operands. -/
theorem adds_argument {b : BlockId} (hb : R.blocks b) {m k : Machine} (hm : m.Ready p True) {v : Value} {asked : Asked}
    (h : eval b (-1) .opening false none m = .done (.ok (v, asked)) k) : v.IsScalar ∧ Adds p m [] k := by
  have hwell : (eval b (-1) .opening false none).Meets _ _ m :=
    he hb (.nested trivial) (fun _ hv => (by cases hv)) hm (K := m.exec.control) rfl
  have hsettled := hse b (-1) .opening false none m hm.calls_ne hm.toScoped
  unfold Meets at hwell hsettled
  rw [h] at hwell hsettled
  obtain ⟨hcarries, heval, hoperands⟩ := hsettled
  obtain ⟨_, _, -, -, hok⟩ := hwell.control
  refine ⟨(hok v asked rfl).1 trivial, ⟨?_, hcarries.frames, hoperands, heval, fun _ h => absurd h List.not_mem_nil⟩⟩
  exact ⟨hcarries.calls_ne hm.calls_ne, hcarries.toScoped hm.calls_ne hm.toScoped, hcarries.program.trans hm.program,
    fun hf => (hwell.calm hf).1⟩

theorem Delivers.adds {frames : List CallFrame} {ps : List Payload} (hps : ∀ b, .block b ∈ ps → R.blocks b)
    {m l : Machine} {vs : List Value} (hm : m.Ready p True) (h : Delivers eval frames ps m vs l) : Adds p m vs l := by
  induction h with
  | nil m => exact .refl hm
  | text hpush _ ih =>
    have hadds := adds_pushOperand (v := .ofText _) hm trivial hpush
    exact hadds.trans (ih (fun b hb => hps b (List.mem_cons_of_mem _ hb)) hadds.ready)
  | const hpush _ ih =>
    have hadds := adds_pushOperand (v := .ofText _) hm trivial hpush
    exact hadds.trans (ih (fun b hb => hps b (List.mem_cons_of_mem _ hb)) hadds.ready)
  | definition _ ih => exact ih (fun b hb => hps b (List.mem_cons_of_mem _ hb)) hm
  | block _ heval hpush _ ih =>
    obtain ⟨hv, hargument⟩ := adds_argument he hse (hps _ List.mem_cons_self) hm heval
    have hadds := hargument.trans (adds_pushOperand hargument.ready hv hpush)
    exact hadds.trans (ih (fun b hb => hps b (List.mem_cons_of_mem _ hb)) hadds.ready)

/-- Pushing what slots yield is what it says. -/
theorem pushSlots_eq_done_iff {b : BlockId} {x : Block} (hb : R.blocks b) (hx : p.Placed b x) (d : Definition)
    (index : Int) (is : List Nat) {frames : List CallFrame} {m l : Machine} (hm : m.Ready p True)
    (hf : SameFrames frames m.exec.calls) :
    pushSlots eval d b index is m = .done (.ok ()) l ↔
      ∃ vs, Delivers eval frames (is.filterMap fun i => x.slots[i]?.map (·.payload)) m vs l := by
  induction is generalizing m with
  | nil =>
    constructor
    · intro h
      cases h
      exact ⟨[], .nil _⟩
    · rintro ⟨vs, h⟩
      cases h
      rfl
  | cons i is ih =>
    -- What is pushed for the first slot, and what the rest yields.
    have more : ∀ {v : Value} {k : Machine}, v.IsScalar → k.Ready p True → SameFrames frames k.exec.calls →
        ((pushOperand v >>= fun _ => pushSlots eval d b index is) k = .done (.ok ()) l ↔
          ∃ k' vs, pushOperand v k = .done () k' ∧
            Delivers eval frames (is.filterMap fun i => x.slots[i]?.map (·.payload)) k' vs l) := by
      intro v k hv hk hfk
      rw [bind_eq_done]
      constructor
      · rintro ⟨_, k', hpush, h⟩
        have hadds := adds_pushOperand hk hv hpush
        obtain ⟨vs, hvs⟩ := (ih hadds.ready (hfk.trans hadds.frames)).mp h
        exact ⟨k', vs, hpush, hvs⟩
      · rintro ⟨k', vs, hpush, hvs⟩
        have hadds := adds_pushOperand hk hv hpush
        exact ⟨(), k', hpush, (ih hadds.ready (hfk.trans hadds.frames)).mpr ⟨vs, hvs⟩⟩
    have hat : slotAt b i m = .done x.slots[i]? m := by
      simp only [slotAt, read, hm.program, hx.block, Option.bind_eq_bind, Option.bind_some]
    rw [pushSlots, bind_apply, hat]
    cases hslot : x.slots[i]? with
    | none =>
      rw [List.filterMap_cons_none (by rw [hslot]; rfl)]
      exact ih hm hf
    | some s =>
      have hs : s ∈ x.slots := List.mem_of_getElem? hslot
      rw [List.filterMap_cons_some (b := s.payload) (by rw [hslot]; rfl)]
      show (pushSlot eval d index s >>= _) m = _ ↔ _
      rw [pushSlot_eq (hx.typed s hs)]
      cases hpay : s.payload with
      | text t =>
        rw [Work.bind_assoc]
        refine (more (v := .ofText t) trivial hm hf).trans ⟨?_, ?_⟩
        · rintro ⟨k, vs, hpush, hvs⟩
          exact ⟨_, .text hpush hvs⟩
        · rintro ⟨vs, h⟩
          cases h with
          | text hpush hvs => exact ⟨_, _, hpush, hvs⟩
      | const t =>
        rw [Work.bind_assoc]
        refine (more (v := .ofText t) trivial hm hf).trans ⟨?_, ?_⟩
        · rintro ⟨k, vs, hpush, hvs⟩
          exact ⟨_, .const hpush hvs⟩
        · rintro ⟨vs, h⟩
          cases h with
          | const hpush hvs => exact ⟨_, _, hpush, hvs⟩
      | definition h =>
        refine (ih hm hf).trans ⟨?_, ?_⟩
        · rintro ⟨vs, hvs⟩
          exact ⟨vs, .definition hvs⟩
        · rintro ⟨vs, h⟩
          cases h with
          | definition hvs => exact ⟨vs, hvs⟩
      | block b' =>
        have hb' : R.blocks b' := R.nested hb hx.block hs hpay
        rw [Work.bind_assoc]
        refine bind_eq_done.trans ⟨?_, ?_⟩
        · rintro ⟨r, k, heval, h⟩
          cases r with
          | error e => cases h
          | ok va =>
            obtain ⟨v, asked⟩ := va
            obtain ⟨hv, hadds⟩ := adds_argument he hse hb' hm heval
            replace h : ((pushOperand v >>= fun _ => Pure.pure (Except.ok ())) >>= _) k = _ := h
            rw [Work.bind_assoc] at h
            obtain ⟨k', vs, hpush, hvs⟩ := (more hv hadds.ready (hf.trans hadds.frames)).mp h
            exact ⟨_, .block hf heval hpush hvs⟩
        · rintro ⟨vs, h⟩
          cases h with
          | block hframes heval hpush hvs =>
            obtain ⟨hv, hadds⟩ := adds_argument he hse hb' hm heval
            refine ⟨_, _, heval, ?_⟩
            show ((pushOperand _ >>= fun _ => Pure.pure (Except.ok ())) >>= _) _ = _
            rw [Work.bind_assoc]
            exact (more hv hadds.ready (hf.trans hadds.frames)).mpr ⟨_, _, hpush, hvs⟩

end

/-! ## Calls -/

/-- The native of a call is about to run the chain on copies of its arguments, which its slots have yielded. -/
def Calls (eval : Evaluator) (b : BlockId) (c : ChainId) (index : Int) (m : Machine) (vs : List Value) (k : Machine) :
    Prop :=
  ∃ x m₁ l, m.program.blocks[b]? = some x ∧ pushOperand (.ofChain (some c)) m = .done () m₁ ∧
    Delivers eval m.exec.calls (x.slots.map (·.payload)) m₁ vs l ∧
    k = calling { block := b, index := index, canSkip := false } .opening (.ofChain (some c) :: vs) vs l

theorem filterMap_range_payload (x : Block) :
    ((List.range x.slots.length).filterMap fun i => x.slots[i]?.map (·.payload)) = x.slots.map (·.payload) := by
  rw [← List.map_filterMap, filterMap_range_getElem?]

/-- Slots that fit yield as many values as there are arguments to the kind of the block. -/
theorem Delivers.length_eq {eval : Evaluator} {frames : List CallFrame} {ss : List Slot} {m l : Machine}
    {vs : List Value} (h : Delivers eval frames (ss.map (·.payload)) m vs l) : vs.length = (ss.filter Slot.yields).length := by
  generalize hps : ss.map (·.payload) = ps at h
  induction h generalizing ss with
  | nil m =>
    rw [List.map_eq_nil_iff.mp hps]
    rfl
  | text _ _ ih | const _ _ ih | block _ _ _ _ ih =>
    obtain ⟨s, ss, rfl, hs, hss⟩ := List.map_eq_cons_iff.mp hps
    have hyields : s.yields = true := by rw [Slot.yields, hs]
    rw [List.filter_cons_of_pos hyields, List.length_cons, List.length_cons, ih hss]
  | definition _ ih =>
    obtain ⟨s, ss, rfl, hs, hss⟩ := List.map_eq_cons_iff.mp hps
    have hyields : ¬ s.yields = true := by simp [Slot.yields, hs]
    rw [List.filter_cons_of_neg hyields, ih hss]

section

variable {p : Program} {R : Region p} {b : BlockId} {c : ChainId} (hb : R.blocks b) (ht : (p.kindOf b).type = .normal)
  (hr : (p.kindOf b).role = .call) (howner : (p.kindOf b).owner = some c) {m : Machine} (hm : m.Ready p True)

include ht hr howner in
/-- A call pushes its chain and what its slots yield. -/
theorem pushOperands_call (eval : Evaluator) (index : Int) :
    pushOperands eval (p.kindOf b) b index .opening false none = (do
      pushOperand (.ofChain (some c))
      pushSlots eval (p.kindOf b) b index (List.range (← slotCount b))) := by
  rw [pushOperands_linked hr howner, pushCalled, ht]
  show ((pushOperand (.ofChain (some c)) >>= fun _ => pushAll []) >>= fun _ =>
    pushDeclared eval (p.kindOf b) b index .opening false) = _
  rw [Work.bind_assoc]
  rfl

def concluding (d : Definition) (b : BlockId) (index : Int) (bound : List Value) (outer : Option EvalState) (base : Nat)
    (r : Except Error Value) : Work (Except Error (Value × Asked)) :=
  afterCall bound { block := b, index := index, canSkip := false } outer base r >>= report d index

/-- Where nothing is left but its operands, a call comes to the value that its chain came to. -/
theorem concluding_eq_done_iff {d : Definition} {index : Int} {bound : List Value} {outer : Option EvalState}
    {vs os : List Value} {k : Machine} (he : k.exec.eval = some { block := b, index := index, canSkip := false })
    (hos : k.exec.operands = vs ++ os) {r : Except Error Value} {v : Value} :
    (∃ asked l, concluding d b index bound outer os.length r k = .done (.ok (v, asked)) l) ↔ r = .ok v := by
  unfold concluding
  rw [bind_apply]
  cases r with
  | error x =>
    obtain ⟨l, herror, -⟩ := afterCall_error bound outer x he hos
    rw [herror]
    refine ⟨?_, fun h => nomatch h⟩
    rintro ⟨asked, l', h⟩
    cases h
  | ok u =>
    obtain ⟨l, hok, -⟩ := afterCall_ok bound outer u he hos
    rw [hok]
    constructor
    · rintro ⟨_, _, h⟩
      cases h
      rfl
    · rintro h
      cases h
      exact ⟨_, _, rfl⟩

include ht hm in
/-- A call pushes its operands, and then its native is called on them. It has no body to skip. -/
theorem evaluateWith_call (hn : (p.kindOf b).native = some callProcedure) (eval : Evaluator) (invoke : Invoker)
    (index : Int) :
    evaluateWith eval invoke b index .opening false none m =
      (pushOperands eval (p.kindOf b) b index .opening false none >>= fun
        | .error e => do
          truncateOperands m.exec.operands.length
          return .error e
        | .ok () =>
          callNative invoke callProcedure { block := b, index := index, canSkip := false } .opening
            m.exec.operands.length >>= report (p.kindOf b) index) m := by
  have hskip : (decide (0 ≤ index) && (p.kindOf b).type.opens && Marker.opening == .opening) = false := by
    rw [ht]
    simp [BlockType.opens]
  have hparts := evaluateWith_native (m := m) (by rw [hm.program]; exact hn) eval invoke index .opening false none
  rw [hm.program, hskip] at hparts
  exact hparts

include hb hm

/-- What the slots of a call yield lies on its chain. -/
theorem adds_call {n : Nat} {x : Block} (hx : p.blocks[b]? = some x) {m₁ l : Machine} {vs : List Value}
    (hchain : pushOperand (.ofChain (some c)) m = .done () m₁)
    (hdelivers : Delivers (evaluate n) m.exec.calls (x.slots.map (·.payload)) m₁ vs l) :
    Adds p m (.ofChain (some c) :: vs) l := by
  obtain ⟨he, -, -⟩ := keeps_control (R := R) True True (.inl trivial) n
  obtain ⟨hse, -, -⟩ := keeps_scopes n
  have hfirst := adds_pushOperand (v := .ofChain (some c)) hm trivial hchain
  have hnested : ∀ b', .block b' ∈ x.slots.map (·.payload) → R.blocks b' := by
    intro b' hb'
    obtain ⟨s, hs, hpay⟩ := List.mem_map.mp hb'
    exact R.nested hb hx hs hpay
  exact hfirst.trans (hdelivers.adds he hse hnested hfirst.ready)

/-- The machine that runs the chain of a call is in the same invocations, with the native of the call at work. -/
theorem Calls.ready {n : Nat} {index : Int} {vs : List Value} {k : Machine} (h : Calls (evaluate n) b c index m vs k) :
    k.Ready p True ∧ k.exec.calls.length = m.exec.calls.length ∧ k.busy = some b ∧ ∀ v ∈ vs, v.IsScalar := by
  obtain ⟨x, m₁, l, hx, hchain, hdelivers, rfl⟩ := h
  rw [hm.program] at hx
  have hadds := adds_call hb hm hx hchain hdelivers
  have hpl := hadds.ready.plain trivial
  refine ⟨⟨hadds.ready.calls_ne, hadds.ready.toScoped, hadds.ready.program, fun _ => ?_⟩, hadds.frames.length_eq, rfl,
    fun v hv => hadds.scalars v (List.mem_cons_of_mem _ hv)⟩
  exact ⟨hpl.operands, hpl.control, hpl.bindings, hpl.args, hpl.results⟩

/-- A call has a value for each argument of its kind. -/
theorem Calls.length_eq {n : Nat} {index : Int} {vs : List Value} {k : Machine}
    (h : Calls (evaluate n) b c index m vs k) : vs.length = (p.kindOf b).arity := by
  obtain ⟨x, m₁, l, hx, -, hdelivers, -⟩ := h
  obtain ⟨y, hy⟩ := R.placed hb
  rw [hm.program, hy.block] at hx
  cases hx
  rw [hdelivers.length_eq, hy.operands]

include ht hr howner

/-- Where the operands of a call are pushed, its chain is about to be run. -/
theorem pushOperands_eq_done_iff (n : Nat) (index : Int) {l : Machine} :
    pushOperands (evaluate n) (p.kindOf b) b index .opening false none m = .done (.ok ()) l ↔
      ∃ x m₁ vs, m.program.blocks[b]? = some x ∧ pushOperand (.ofChain (some c)) m = .done () m₁ ∧
        Delivers (evaluate n) m.exec.calls (x.slots.map (·.payload)) m₁ vs l := by
  obtain ⟨x, hx⟩ := R.placed hb
  obtain ⟨he, -, -⟩ := keeps_control (R := R) True True (.inl trivial) n
  obtain ⟨hse, -, -⟩ := keeps_scopes n
  have hslots : ∀ {m₁ : Machine}, pushOperand (.ofChain (some c)) m = .done () m₁ →
      ((slotCount b >>= fun k => pushSlots (evaluate n) (p.kindOf b) b index (List.range k)) m₁ = .done (.ok ()) l ↔
        ∃ vs, Delivers (evaluate n) m.exec.calls (x.slots.map (·.payload)) m₁ vs l) := by
    intro m₁ hchain
    have hadds := adds_pushOperand (v := .ofChain (some c)) hm trivial hchain
    rw [bind_apply, slotCount_eq (hadds.ready.program ▸ hx.block), ← filterMap_range_payload]
    exact pushSlots_eq_done_iff he hse hb hx _ index _ hadds.ready hadds.frames
  rw [pushOperands_call ht hr howner, bind_eq_done]
  constructor
  · rintro ⟨_, m₁, hchain, h⟩
    obtain ⟨vs, hdelivers⟩ := (hslots hchain).mp h
    exact ⟨x, m₁, vs, by rw [hm.program]; exact hx.block, hchain, hdelivers⟩
  · rintro ⟨y, m₁, vs, hy, hchain, hdelivers⟩
    rw [hm.program, hx.block] at hy
    cases hy
    exact ⟨(), m₁, hchain, (hslots hchain).mpr ⟨vs, hdelivers⟩⟩

variable (hn : (p.kindOf b).native = some callProcedure)
include hn

/-- Once its slots have yielded their values, all that a call does is run its chain on copies of these, and
    conclude. -/
theorem evaluateWith_of_calls {n : Nat} {index : Int} {vs : List Value} {k : Machine}
    (h : Calls (evaluate n) b c index m vs k) :
    ∃ outer os, (∀ invoke, evaluateWith (evaluate n) invoke b index .opening false none m =
        (invoke c (vs.map Value.retagged) >>=
          concluding (p.kindOf b) b index (vs.map Value.retagged) outer m.exec.operands.length) k) ∧
      k.exec.operands = os ++ m.exec.operands ∧
      k.exec.eval = some { block := b, index := index, canSkip := false } := by
  obtain ⟨x, m₁, l, hx, hchain, hdelivers, rfl⟩ := h
  have hadds := adds_call hb hm (by rwa [hm.program] at hx) hchain hdelivers
  have hpush := (pushOperands_eq_done_iff hb ht hr howner hm n index).mpr ⟨x, m₁, vs, hx, hchain, hdelivers⟩
  have hscalars : ∀ v ∈ vs, v.IsScalar := fun v hv => hadds.scalars v (List.mem_cons_of_mem _ hv)
  have hoperands : l.exec.operands = vs.reverse ++ .ofChain (some c) :: m.exec.operands := by
    rw [hadds.operands, List.reverse_cons, List.append_assoc]
    rfl
  have hargs : (vs.reverse.map l.storage.view).reverse = vs := by
    rw [List.map_reverse, List.reverse_reverse, Storage.view_scalars hscalars]
  refine ⟨l.exec.eval, vs.reverse ++ [.ofChain (some c)], fun invoke => ?_, ?_, rfl⟩
  · have hcall : callNative invoke callProcedure _ _ _ l = _ :=
      callNative_call { block := b, index := index, canSkip := false } .opening hoperands
    simp only [hargs, Storage.copyAll_of_scalars hscalars] at hcall
    rw [evaluateWith_call ht hm hn, bind_apply, hpush]
    show (callNative _ _ _ _ _ >>= report _ _) l = _
    rw [bind_apply, hcall, ← bind_apply, Work.bind_assoc]
    rfl
  · show l.exec.operands = _
    rw [hoperands, List.append_assoc]
    rfl

/-- Such a call comes to the values that its chain comes to. -/
theorem evaluateWith_value_iff {n : Nat} {index : Int} {vs : List Value} {k : Machine}
    (h : Calls (evaluate n) b c index m vs k) {v : Value} :
    (∃ asked l, evaluateWith (evaluate n) (invoke n) b index .opening false none m = .done (.ok (v, asked)) l) ↔
      ∃ k', invoke n c (vs.map Value.retagged) k = .done (.ok v) k' := by
  obtain ⟨hready, -, -, -⟩ := h.ready hb hm
  obtain ⟨outer, os, heval, hos, hstate⟩ := evaluateWith_of_calls hb ht hr howner hm hn h
  have hrestores := (keeps_scopes n).2.1 c (vs.map Value.retagged) k hready.toScoped
  unfold Meets at hrestores
  -- The chain leaves the evaluation and the operands of the call.
  have hconcludes : ∀ {r k'}, invoke n c (vs.map Value.retagged) k = .done r k' →
      ((∃ asked l, concluding (p.kindOf b) b index (vs.map Value.retagged) outer m.exec.operands.length r k' =
        .done (.ok (v, asked)) l) ↔ r = .ok v) := by
    intro r k' hinvoke
    rw [hinvoke] at hrestores
    exact concluding_eq_done_iff (hrestores.eval.trans hstate) (hrestores.operands.trans hos)
  constructor
  · rintro ⟨asked, l, h⟩
    rw [heval] at h
    obtain ⟨r, k', hinvoke, h⟩ := bind_eq_done.mp h
    obtain rfl := (hconcludes hinvoke).mp ⟨asked, l, h⟩
    exact ⟨k', hinvoke⟩
  · rintro ⟨k', hinvoke⟩
    obtain ⟨asked, l, h⟩ := (hconcludes hinvoke).mpr rfl
    exact ⟨asked, l, (heval _).trans (bind_eq_done.mpr ⟨_, k', hinvoke, h⟩)⟩

/-- Where its slots do not all yield a value, a call runs no chain and comes to no value. -/
theorem evaluateWith_of_not_calls {n : Nat} {index : Int} (h : ¬ ∃ vs k, Calls (evaluate n) b c index m vs k)
    (invoke invoke' : Invoker) :
    evaluateWith (evaluate n) invoke b index .opening false none m =
        evaluateWith (evaluate n) invoke' b index .opening false none m ∧
      ∀ r l, evaluateWith (evaluate n) invoke b index .opening false none m ≠ .done (.ok r) l := by
  obtain ⟨x, hx⟩ := R.placed hb
  obtain ⟨he, -, -⟩ := keeps_control (R := R) True True (.inl trivial) n
  obtain ⟨hse, -, -⟩ := keeps_scopes n
  have hnone : ∀ v ∈ (none : Option Value), True → v.IsScalar := nofun
  have hpushes := pushOperands_pushes he hse (.inl trivial) hb hx index .opening false hnone hm
  have hfails : ∀ l, pushOperands (evaluate n) (p.kindOf b) b index .opening false none m ≠ .done (.ok ()) l := by
    intro l hpush
    obtain ⟨x, m₁, vs, hcalls⟩ := (pushOperands_eq_done_iff hb ht hr howner hm n index).mp hpush
    exact h ⟨vs, _, x, m₁, l, hcalls.1, hcalls.2.1, hcalls.2.2, rfl⟩
  rw [evaluateWith_call ht hm hn, evaluateWith_call ht hm hn]
  refine ⟨?_, fun r l h => ?_⟩
  · rw [bind_apply, bind_apply]
    cases hpush : pushOperands (evaluate n) (p.kindOf b) b index .opening false none m with
    | done r l =>
      cases r with
      | error e => rfl
      | ok _ => exact absurd hpush (hfails l)
    | fault f l => rfl
    | starved l => rfl
    | paused l resume =>
      -- Arguments of standard blocks never wait.
      exact absurd hpush hpushes.ne_paused
  · obtain ⟨r, k, hpush, h⟩ := bind_eq_done.mp h
    cases r with
    | error e => cases h
    | ok _ => exact hfails k hpush

/-- A call evaluates to a value where its slots yield some values, and the chain, run on copies of these, comes to
    it; and only there. -/
theorem evaluate_call_iff (n : Nat) (index : Int) {v : Value} :
    (∃ asked l, evaluate (n + 1) b index .opening false none m = .done (.ok (v, asked)) l) ↔
      ∃ vs k k', Calls (evaluate n) b c index m vs k ∧ invoke n c (vs.map Value.retagged) k = .done (.ok v) k' := by
  rw [evaluate]
  constructor
  · rintro ⟨asked, l, h⟩
    obtain ⟨vs, k, hcalls⟩ : ∃ vs k, Calls (evaluate n) b c index m vs k := by
      by_contra hno
      exact (evaluateWith_of_not_calls hb ht hr howner hm hn hno _ (invoke n)).2 _ _ h
    obtain ⟨k', hinvoke⟩ := (evaluateWith_value_iff hb ht hr howner hm hn hcalls).mp ⟨asked, l, h⟩
    exact ⟨vs, k, k', hcalls, hinvoke⟩
  · rintro ⟨vs, k, k', hcalls, hinvoke⟩
    exact (evaluateWith_value_iff hb ht hr howner hm hn hcalls).mpr ⟨k', hinvoke⟩

end

end BlockEngine.Work
