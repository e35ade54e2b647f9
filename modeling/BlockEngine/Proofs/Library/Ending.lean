/-
  BlockEngine.Proofs.Library.Ending — evaluations that end.

  A family of works that take fuel `Ends` if all of its members that have enough are over in the same
  way, with a result of which something may be said, or broken down. None of these starves or waits for
  the host. What holds of results alone is said by `Meets`, and joined to it by `Ends.both`.

  Proved, for regions of standard blocks:
  - `perform_ends`: a native ends if the chains that it calls do.
  - `evaluateWith_ends`: so does the evaluation of a block, if that of the blocks which it nests does too.
  Neither cancels a run, nor fails as if one had been cancelled.
-/

import BlockEngine.Proofs.Library.Evaluation
import BlockEngine.Proofs.Program.Nesting

namespace BlockEngine

def Exits.over : Exits := ⟨fun _ _ => True, fun _ => False, fun _ => False⟩

namespace Work

variable {α β : Type} {m k l : Machine}

/-- With enough fuel the work is over, the same way with any more, and this holds of its result. -/
def Ends (w : Nat → Work α) (Q : α → Machine → Prop) (m : Machine) : Prop :=
  ∃ o : Outcome α, o.Meets Q .over ∧ ∃ n, ∀ i ≥ n, w i m = o

namespace Ends

variable {w : Nat → Work α} {Q : α → Machine → Prop}

theorem of_meets {w : Work α} (h : w.Meets Q .over m) : Ends (fun _ => w) Q m := ⟨w m, h, 0, fun _ _ => rfl⟩

theorem weaken {Q' : α → Machine → Prop} (h : Ends w Q m) (hQ : ∀ a k, Q a k → Q' a k) : Ends w Q' m := by
  obtain ⟨o, ho, hw⟩ := h
  exact ⟨o, ho.weaken hQ, hw⟩

/-- What holds of a result however much fuel there is. -/
theorem both {Q' : α → Machine → Prop} {E : Exits} (h : Ends w Q m) (hm : ∀ n, (w n).Meets Q' E m) :
    Ends w (fun a k => Q a k ∧ Q' a k) m := by
  obtain ⟨o, ho, n, hn⟩ := h
  have hmeets := hm n
  unfold Meets at hmeets
  rw [hn n (Nat.le_refl n)] at hmeets
  exact ⟨o, (ho.both hmeets).mono (fun _ _ => id) (fun _ _ => And.left) (fun _ => And.left) fun _ => And.left, n, hn⟩

theorem bind {f : Nat → α → Work β} {Q' : β → Machine → Prop} (hw : Ends w Q m)
    (hf : ∀ a k, Q a k → Ends (fun n => f n a) Q' k) : Ends (fun n => w n >>= f n) Q' m := by
  obtain ⟨o, ho, n, hn⟩ := hw
  cases o with
  | done a k =>
    obtain ⟨o', ho', n', hn'⟩ := hf a k ho
    refine ⟨o', ho', max n n', fun i hi => (bind_apply (w i) (f i) m).trans ?_⟩
    rw [hn i (le_of_max_le_left hi)]
    exact hn' i (le_of_max_le_right hi)
  | fault x k =>
    refine ⟨.fault x k, trivial, n, fun i hi => (bind_apply (w i) (f i) m).trans ?_⟩
    rw [hn i hi]
    rfl
  | paused k resume => exact ho.1.elim
  | starved k => exact ho.elim

/-- What comes first takes no fuel. -/
theorem after {w : Work α} {f : Nat → α → Work β} {Q : β → Machine → Prop}
    (h : w.Meets (fun a k => Ends (fun n => f n a) Q k) .over m) : Ends (fun n => w >>= f n) Q m :=
  (of_meets h).bind fun _ _ h => h

/-- The member without fuel does not count. -/
theorem succ (h : Ends (fun n => w (n + 1)) Q m) : Ends w Q m := by
  obtain ⟨o, ho, n, hn⟩ := h
  refine ⟨o, ho, n + 1, fun i hi => ?_⟩
  cases i with
  | zero => cases hi
  | succ i => exact hn i (Nat.le_of_succ_le_succ hi)

end Ends

end Work

/-! ## Runs that nobody cancels -/

namespace Machine

def Admits (m : Machine) (e : Error) : Prop := e.isCancellation = true → m.exec.cancelled.isSome = true

theorem Admits.of_eq {m k : Machine} {e : Error} (h : k.Admits e) (hc : k.exec.cancelled = m.exec.cancelled) :
    m.Admits e := fun he => hc ▸ h he

theorem admits_of_not {m : Machine} {e : Error} (h : e.isCancellation = false) : m.Admits e := by
  intro he
  rw [h] at he
  cases he

/-- Work begun on `m` cancelled nothing, and fails with a cancellation only if the run was cancelled. -/
structure Clear {α : Type} (m : Machine) (r : Except Error α) (k : Machine) : Prop where
  cancelled : k.exec.cancelled = m.exec.cancelled
  error : ∀ e, r = .error e → m.Admits e

theorem Clear.ok {α : Type} {m k : Machine} (h : k.exec.cancelled = m.exec.cancelled) (a : α) :
    m.Clear (.ok a) k := ⟨h, fun _ he => (by cases he)⟩

theorem Clear.after {α : Type} {m k l : Machine} {r : Except Error α} (h : k.Clear r l)
    (hk : k.exec.cancelled = m.exec.cancelled) : m.Clear r l :=
  ⟨h.cancelled.trans hk, fun e he => (h.error e he).of_eq hk⟩

/-- As `Clear`, of the native at work. -/
structure Innocent (m k : Machine) : Prop where
  cancelled : k.exec.cancelled = m.exec.cancelled
  error : ∀ e ∈ k.exec.eval, ∀ x ∈ e.error, m.Admits x

namespace Innocent

variable {m k l : Machine}

theorem of_eq (h : m.Innocent k) (hc : l.exec.cancelled = k.exec.cancelled) (he : l.exec.eval = k.exec.eval) :
    m.Innocent l := ⟨hc.trans h.cancelled, he ▸ h.error⟩

theorem mapEval (h : m.Innocent k) {f : EvalState → EvalState}
    (hf : ∀ e ∈ k.exec.eval, ∀ x ∈ (f e).error, m.Admits x) :
    m.Innocent { k with exec := k.exec.mapEval f } := by
  refine ⟨h.cancelled, fun e he => ?_⟩
  obtain ⟨e₀, he₀, rfl⟩ := Option.map_eq_some_iff.mp (Option.mem_def.mp he)
  exact hf e₀ he₀

theorem fail (h : m.Innocent k) {x : Error} (hx : m.Admits x) :
    m.Innocent { k with exec := k.exec.mapEval fun e => { e with error := some (e.error.getD x) } } := by
  refine h.mapEval fun e he y hy => ?_
  cases hy
  cases hr : e.error with
  | none => exact hx
  | some z => exact h.error e he z hr

end Innocent

def Room (g : Nat) (m : Machine) : Prop := m.exec.limits.calls ≤ m.exec.calls.length + g

theorem Room.carries {g : Nat} {m k : Machine} (h : m.Room g) (hk : m.Carries k) : k.Room g := by
  unfold Room
  rw [hk.limits, hk.frames.length_eq]
  exact h

theorem Ready.carries {p : Program} {m k : Machine} (h : m.Ready p False) (hk : m.Carries k) : k.Ready p False :=
  ⟨hk.calls_ne h.calls_ne, hk.toScoped h.calls_ne h.toScoped, hk.program.trans h.program, False.elim⟩

end Machine

theorem Error.isCancellation_blame (id : Text) (position : Int) (e : Error) :
    (e.blame id position).isCancellation = e.isCancellation := by
  unfold Error.blame
  split <;> rfl

namespace Work

variable {p : Program} {R : Region p} {m k : Machine}

/-! ## Natives -/

/-- All that a native may ask for but calls. -/
theorem answer_innocent (invoke : Invoker) {ρ : Rules} {s : Private} {r : Request} {c : r.Reply → Private → Prop}
    (hr : ∀ x args, r ≠ .call x args) (hc : Proc.Permits ρ r c s) (h : m.Innocent k) :
    (answer invoke r).Meets (fun _ l => m.Innocent l) .over k := by
  cases r with
  | skipBody =>
    show skipBody.Meets (fun _ => m.Innocent) .over k
    unfold Meets skipBody
    split
    · trivial
    · rename_i e he
      split
      · refine ⟨h.cancelled, fun e' he' => ?_⟩
        cases he'
        exact h.error e he
      · trivial
  | jumpTo i => exact h.mapEval h.error
  | finish v =>
    show (finish v).Meets (fun _ => m.Innocent) .over k
    unfold finish
    rw [meets_modify]
    split
    · exact h
    · exact h.of_eq rfl rfl
  | fail e => exact h.fail (Machine.admits_of_not hc.1)
  | declare name v =>
    show (declare name v).Meets (fun _ => m.Innocent) .over k
    simp only [declare, meets_bind, meets_read, meets_pushVariable]
    split
    · exact h.of_eq rfl rfl
    · trivial
  | assign name v =>
    show (assign name v).Meets (fun _ => m.Innocent) .over k
    unfold Meets assign
    split
    · exact h
    · exact h.of_eq rfl rfl
  | fetch name =>
    show (fetch name).Meets (fun _ => m.Innocent) .over k
    simp only [fetch, meets_bind, meets_read]
    split
    · exact h
    · exact h.of_eq rfl rfl
  | pushData v =>
    show (pushControl _).Meets (fun _ => m.Innocent) .over k
    rw [meets_pushControl]
    split
    · exact h.of_eq rfl rfl
    · trivial
  | popData =>
    show popData.Meets (fun _ => m.Innocent) .over k
    unfold Meets popData
    split
    · exact h.of_eq rfl rfl
    · trivial
  | argument i =>
    show (argument i).Meets (fun _ => m.Innocent) .over k
    simp only [argument, meets_bind, meets_read]
    split
    · exact h
    · split
      · exact h.of_eq rfl rfl
      · exact h
  | call x args => exact absurd rfl (hr x args)
  | glimpse => exact h
  | copy v => exact h.of_eq (l := { k with storage := (k.storage.copy v).2 }) rfl rfl
  | free v => exact h.of_eq (l := { k with storage := k.storage.free v }) rfl rfl
  | print line =>
    show (print line).Meets (fun _ => m.Innocent) .over k
    unfold Meets print
    split
    · exact h
    · exact h.of_eq rfl rfl
  | _ => exact hc.elim

/-- Invocations of the region's chains end, where so many can be begun inside each other. -/
def InvocationsEnd (R : Region p) (g : Nat) (invoke : Nat → Invoker) : Prop :=
  ∀ {c args m}, R.chains c → m.Scoped → m.program = p → m.Room g → Ends (fun n => invoke n c args) m.Clear m

section

variable {g : Nat} {invoke : Nat → Invoker} (hi : InvocationsEnd R g invoke) (hr : ∀ n, Restoring (invoke n))
include hi hr

theorem call_ends {c : Option ChainId} (hc : ∀ x ∈ c, R.chains x) (args : List Value) (hs : k.Scoped)
    (hp : k.program = p) (hg : k.Room g) (h : m.Innocent k) :
    Ends (fun n => call (invoke n) c args) (fun _ l => m.Innocent l) k := by
  cases c with
  | none => exact .of_meets (h.fail (Machine.admits_of_not rfl))
  | some c =>
    let k₁ : Machine := { k with storage := (k.storage.copyAll args).2 }
    refine .after ?_
    rw [meets_onStorage]
    show Ends _ _ k₁
    have hends := @hi c (k.storage.copyAll args).1 k₁ (hc c rfl) hs hp hg
    refine (hends.both fun n => hr n c _ k₁ hs).bind fun r l hl => .of_meets ?_
    obtain ⟨hclear, hres⟩ := hl
    have hfree : m.Innocent { l with storage := l.storage.releaseAll (k.storage.copyAll args).1 } :=
      (h.of_eq hclear.cancelled hres.eval).of_eq rfl rfl
    rw [meets_bind, meets_modify]
    cases r with
    | ok v => exact hfree
    | error e =>
      have he : m.Admits e := (hclear.error e rfl).of_eq (k := k₁) h.cancelled
      dsimp only
      rw [meets_bind]
      exact hfree.fail he

/-- A native that keeps to the rules ends. -/
theorem perform_ends {ρ : Rules} {K : List ControlFrame} {m₀ : Machine} {s : Private} {γ : Type}
    (hw : ∀ n, InvokesWell R ρ.lenient ρ.flat False (invoke n)) (hcallee : ∀ c, ρ.callee c → R.chains c) {q : Proc γ}
    {Q : γ → Private → Prop} (hq : q.Does ρ Q s) (hserve : Serving ρ K m₀ s k) (hc : k.exec.calls ≠ [])
    (hs : k.Scoped) (hp : k.program = p) (hg : k.Room g) (h : m.Innocent k) :
    Ends (fun n => perform (invoke n) q) (fun _ l => m.Innocent l) k := by
  induction q generalizing s k with
  | done a => exact .of_meets h
  | crash f => exact .of_meets trivial
  | ask r go ih =>
    have hanswer : Ends (fun n => answer (invoke n) r) (fun _ l => m.Innocent l) k := by
      by_cases hcall : ∃ x args, r = .call x args
      · obtain ⟨x, args, rfl⟩ := hcall
        exact call_ends hi hr (fun y hy => hcallee y (hq.1 y hy)) args hs hp hg h
      · have hcall : ∀ x args, r ≠ .call x args := fun x args e => hcall ⟨x, args, e⟩
        have he : ∀ i : Invoker, answer i r = answer (invoke 0) r := fun i => by
          cases r with
          | call x args => exact absurd rfl (hcall x args)
          | _ => rfl
        simp only [he]
        exact .of_meets (answer_innocent _ hcall hq h)
    refine ((hanswer.both fun n => answer_serves (hw n) (hr n) hcallee hserve hs hp hq).both fun n =>
      answer_tame (hr n) r k hc hs).bind fun a l hl => ?_
    obtain ⟨⟨hl, s', hq', hserve'⟩, hcar, -⟩ := hl
    exact ih a hq' hserve' (hcar.calls_ne hc) (hcar.toScoped hc hs) (hcar.program.trans hp) (hg.carries hcar) hl

end

/-! ## Operands -/

theorem pushAll_clear (vs : List Value) :
    (pushAll vs).Meets (fun _ k => k.exec.cancelled = m.exec.cancelled) .over m := by
  induction vs generalizing m with
  | nil => rfl
  | cons v vs ih =>
    simp only [pushAll, meets_bind, meets_pushOperand]
    split
    · exact ih (m := { m with exec.operands := v :: m.exec.operands })
    · trivial

theorem pushHidden_clear (d : Definition) (index : Int) (mark : Marker) (prior : Option Value) :
    (pushHidden d index mark prior).Meets m.Clear .over m := by
  rw [pushHidden_eq]
  split
  · have hunlinked : ∀ e, .error (.inBlock d.id index .unlinked) = (.error e : Except Error Unit) → m.Admits e := by
      rintro _ ⟨⟩
      exact Machine.admits_of_not rfl
    cases prior with
    | none => exact ⟨rfl, hunlinked⟩
    | some v => exact ⟨rfl, hunlinked⟩
  · rw [meets_bind]
    exact (pushAll_clear _).weaken fun _ k hk => .ok hk ()

section

variable {g : Nat} {eval : Nat → Evaluator} {b : BlockId} (hse : ∀ n, Settling (eval n))
  (hnest : ∀ {b' m}, p.Nests b b' → m.Ready p False → m.Room g →
    Ends (fun n => eval n b' (-1) .opening false none) m.Clear m)
include hse hnest

omit hse in
theorem pushSlot_ends (d : Definition) (index : Int) {s : Slot} (hs : ∀ b', s.payload = .block b' → p.Nests b b')
    (hm : m.Ready p False) (hg : m.Room g) : Ends (fun n => pushSlot (eval n) d index s) m.Clear m := by
  have push : ∀ (v : Value) {k : Machine}, k.exec.cancelled = m.exec.cancelled →
      Ends (fun _ => pushOperand v >>= fun _ => Pure.pure (.ok ())) m.Clear k := by
    intro v k hc
    refine .after ?_
    rw [meets_pushOperand]
    split
    · exact .of_meets ⟨hc, nofun⟩
    · trivial
  unfold pushSlot
  cases ht : s.type with
  | text | const => exact push _ rfl
  | definition => exact .of_meets (.ok rfl ())
  | unknown => exact .of_meets ⟨rfl, fun _ he => by cases he; exact Machine.admits_of_not rfl⟩
  | block =>
    cases hb : s.block with
    | none => exact .of_meets trivial
    | some b' =>
      have hn := hs b' (Slot.payload_of_block ht hb)
      refine (hnest hn hm hg).bind fun r k hclear => ?_
      cases r with
      | error e => exact .of_meets ⟨hclear.cancelled, fun _ he => by cases he; exact hclear.error e rfl⟩
      | ok va => exact push va.1 hclear.cancelled

theorem pushSlots_ends (d : Definition) (index : Int) (is : List Nat) (hm : m.Ready p False) (hg : m.Room g) :
    Ends (fun n => pushSlots (eval n) d b index is) m.Clear m := by
  induction is generalizing m with
  | nil => exact .of_meets (.ok rfl ())
  | cons i is ih =>
    refine .after ?_
    rw [slotAt, meets_read]
    generalize hslot : (do
      let x ← m.program.blocks[b]?
      x.slots[i]?) = o
    cases o with
    | none => exact ih hm hg
    | some s =>
      have hs : ∀ b', s.payload = .block b' → p.Nests b b' := fun b' hb' => by
        rw [hm.program] at hslot
        obtain ⟨x, hx, hs⟩ := Option.bind_eq_some_iff.mp hslot
        exact ⟨x, hx, s, List.mem_of_getElem? hs, hb'⟩
      refine ((pushSlot_ends hnest d index hs hm hg).both fun n =>
        pushSlot_growing (hse n) d index s m hm.calls_ne hm.toScoped).bind fun r k hk => ?_
      obtain ⟨hclear, hcar, -⟩ := hk
      cases r with
      | error e => exact .of_meets ⟨hclear.cancelled, fun _ he => by cases he; exact hclear.error e rfl⟩
      | ok _ => exact (ih (hm.carries hcar) (hg.carries hcar)).weaken fun _ _ h => h.after hclear.cancelled

theorem pushOperands_ends (d : Definition) (index : Int) (mark : Marker) (bare : Bool) (prior : Option Value)
    (hm : m.Ready p False) (hg : m.Room g) :
    Ends (fun n => pushOperands (eval n) d b index mark bare prior) m.Clear m := by
  have hhidden := (Ends.of_meets (pushHidden_clear d index mark prior)).both fun _ =>
    pushHidden_growing d index mark prior m hm.calls_ne hm.toScoped
  refine hhidden.bind fun r k hk => ?_
  obtain ⟨hclear, hcar, -⟩ := hk
  cases r with
  | error e => exact .of_meets hclear
  | ok _ =>
    unfold pushDeclared
    dsimp only
    by_cases hb : (bare || mark == .closing) = true
    · simp only [if_pos hb]
      exact .of_meets hclear
    · simp only [if_neg hb]
      refine .after ?_
      rw [slotCount, meets_read]
      exact (pushSlots_ends hse hnest d index _ (hm.carries hcar) (hg.carries hcar)).weaken fun _ _ h =>
        h.after hclear.cancelled

end

/-! ## Evaluations -/

/-- The native of a block of the region ends, begun on the operands of the block. -/
theorem callNative_ends {g : Nat} {invoke : Nat → Invoker} (hw : ∀ n, InvokesWell R True False False (invoke n))
    (hr : ∀ n, Restoring (invoke n)) (hi : InvocationsEnd R g invoke) {b : BlockId} (hb : R.blocks b) {native : Native}
    (hn : (p.kindOf b).Conducts native) {index : Int} {mark : Marker} {bare : Bool} {prior : Option Value}
    {kept strays vs : List Value} {K : List ControlFrame} {L : Prop}
    (he : (p.kindOf b).Entered index True mark bare prior kept) (hm : m.Ready p False)
    (hk : Pushed L False m.exec.control m (hidden (p.kindOf b) mark prior ++ vs) k)
    (hv : vs.length = if bare || mark == .closing then 0 else (p.kindOf b).arity)
    (hctl : k.exec.control = framesOf kept ++ (framesOf strays ++ K)) (hg : m.Room g) :
    Ends (fun n => callNative (invoke n) native
        { block := b, index, canSkip := (rulesFor R True False (p.kindOf b) index mark).canSkip } mark
        m.exec.operands.length)
      (fun r l => l.exec.cancelled = k.exec.cancelled ∧ ∀ x ∈ r.2.error, k.Admits x) k := by
  let e : EvalState := { block := b, index, canSkip := (rulesFor R True False (p.kindOf b) index mark).canSkip }
  let k₁ := atWork e mark ((hidden (p.kindOf b) mark prior ++ vs).map k.storage.view) k
  have hready := hk.ready hm
  have hroom : k.Room g := hg.carries hk.carries
  obtain ⟨hdoes, hserve⟩ := begun_serving hb hn he hm hk hv hctl
  have hbegun : k.Innocent k₁ := by
    refine ⟨rfl, fun e' he' x hx => ?_⟩
    cases he'
    cases hx
  refine .after ?_
  unfold Meets
  rw [hk.window]
  show Ends _ _ k
  refine .after ?_
  rw [meets_read]
  refine .after ?_
  rw [meets_modify]
  show Ends _ _ k₁
  refine (perform_ends (k := k₁) hi hr hw (fun _ h => h) hdoes hserve hready.calls_ne hready.toScoped hready.program
    hroom hbegun).bind fun v l hl => .of_meets ?_
  simp only [meets_bind, meets_read, meets_mapExec, meets_pure]
  show l.exec.cancelled = _ ∧ ∀ x ∈ (l.exec.eval.getD e).error, k.Admits x
  refine ⟨hl.cancelled, ?_⟩
  cases hev : l.exec.eval with
  | none => exact fun x hx => by cases hx
  | some e' => exact hl.error e' hev

section

variable {g : Nat} {eval : Nat → Evaluator} {invoke : Nat → Invoker}
  (he : ∀ n, EvaluatesWell R True False False (eval n)) (hse : ∀ n, Settling (eval n))
  (hw : ∀ n, InvokesWell R True False False (invoke n)) (hr : ∀ n, Restoring (invoke n)) (hi : InvocationsEnd R g invoke)
include he hse hw hr hi

/-- A block of the region ends its evaluation if those that it nests do. -/
theorem evaluateWith_ends {b : BlockId} (hb : R.blocks b)
    (hnest : ∀ {b' m}, p.Nests b b' → m.Ready p False → m.Room g →
      Ends (fun n => eval n b' (-1) .opening false none) m.Clear m)
    {index : Int} {mark : Marker} {bare : Bool} {prior : Option Value} {kept : List Value} {K : List ControlFrame}
    (hent : (p.kindOf b).Entered index True mark bare prior kept) (hm : m.Ready p False)
    (hctl : m.exec.control = framesOf kept ++ K) (hg : m.Room g) :
    Ends (fun n => evaluateWith (eval n) (invoke n) b index mark bare prior) m.Clear m := by
  obtain ⟨x, hx⟩ := R.placed hb
  obtain ⟨native, hnative, hcond⟩ := Definition.conducts_of_standard hx.kind
  have hkind : m.program.kindOf b = p.kindOf b := by rw [hm.program]
  refine .after ?_
  rw [kindOf, meets_read, hkind, hnative]
  refine .after ?_
  rw [meets_read]
  have hpush := (pushOperands_ends hse hnest (p.kindOf b) index mark bare prior hm hg).both fun n =>
    pushOperands_pushes (he n) (hse n) (.inl trivial) hb hx index mark bare (fun _ _ => False.elim) hm
  refine hpush.bind fun r k hk => ?_
  obtain ⟨hclear, hk⟩ := hk
  cases r with
  | error e => exact .of_meets ⟨hclear.cancelled, fun _ h => by cases h; exact hclear.error e rfl⟩
  | ok _ =>
    obtain ⟨vs, hlen, hk⟩ := hk
    obtain ⟨strays, hcomm, -⟩ := hk.below hent hctl
    dsimp only
    refine (callNative_ends hw hr hi hb hcond hent hm hk hlen hcomm hg).bind fun r l hl => .of_meets ?_
    obtain ⟨v, e⟩ := r
    obtain ⟨hcancelled, herror⟩ := hl
    dsimp only
    split
    · rename_i x hx
      refine ⟨hcancelled.trans hclear.cancelled, fun y hy => ?_⟩
      cases hy
      refine Machine.Admits.of_eq (k := k) (fun h => ?_) hclear.cancelled
      rw [Error.isCancellation_blame] at h
      exact herror x hx h
    · exact .ok (hcancelled.trans hclear.cancelled) _

end

end Work

end BlockEngine
