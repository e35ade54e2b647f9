/-
  BlockEngine.Proofs.Library.Evaluation — evaluating standard blocks.

  What a native does that keeps to the rules shows on the machine: the control stack is what it was
  under what the block keeps now, and breakdowns are stacks that overflow, unless others are let
  pass (`perform_serves`). A block of a region that is entered as the engine enters it pushes the
  operands that its native expects, and does no more than its native (`evaluateWith_serves`).
-/

import BlockEngine.Proofs.Library.Region

namespace BlockEngine

def Fault.IsOverflow (f : Fault) : Prop := ∃ stack capacity, f = Work.stackFault stack .push capacity

/-- Work breaks down only where a stack is full, unless other breakdowns are let pass, and is paused
    only if that is let pass, too. -/
def Exits.orderly (lenient waits : Prop) : Exits :=
  ⟨fun f _ => f.IsOverflow ∨ lenient, fun _ => True, fun _ => waits⟩

def framesOf (vs : List Value) : List ControlFrame := vs.map .data

/-- The machine is inside an invocation of a program, with scalars only if asked for. -/
structure Machine.Ready (p : Program) (flat : Prop) (m : Machine) : Prop where
  calls_ne : m.exec.calls ≠ []
  toScoped : m.Scoped
  program : m.program = p
  plain : flat → m.Plain

namespace Work

variable {p : Program} (R : Region p) (lenient flat waits : Prop)

/-- Invocations of the region's chains leave the control stack as it was. -/
def InvokesWell (invoke : Invoker) : Prop :=
  ∀ {c args m}, R.chains c → m.Scoped → m.program = p → (flat → m.Plain) → (∀ v ∈ args, flat → v.IsScalar) →
    (invoke c args).Meets
      (fun r k => k.exec.control = m.exec.control ∧ m.Calm flat k ∧ ∀ v, r = .ok v → flat → v.IsScalar)
      (.orderly lenient waits) m

/-- A native is at work that was begun on `m₀`, on a control stack `K` and what it has kept there. -/
structure Serving (ρ : Rules) (K : List ControlFrame) (m₀ : Machine) (s : Private) (m : Machine) : Prop where
  plain : ρ.flat → m.Plain
  control : m.exec.control = framesOf s.kept ++ K
  eval : ∃ e, m.exec.eval = some e ∧ e.index = ρ.index ∧ e.canSkip = ρ.canSkip ∧ e.jump = s.jump
  quiet : ρ.flat → m₀.Quiet m

variable {R lenient flat waits} {ρ : Rules} {K : List ControlFrame} {m₀ m : Machine} {s : Private}

/-! ## Requests -/

namespace Serving

/-- What touches the interpreter nowhere, and stays quiet where all values are scalars. -/
theorem of_exec {k : Machine} (h : Serving ρ K m₀ s m) (he : k.exec = m.exec)
    (hq : ρ.flat → m.Plain → m.Quiet k) : Serving ρ K m₀ s k := by
  refine ⟨fun hf => ?_, he ▸ h.control, he ▸ h.eval, fun hf => (h.quiet hf).trans (hq hf (h.plain hf))⟩
  have hm := h.plain hf
  exact ⟨he ▸ hm.operands, he ▸ hm.control, he ▸ hm.bindings, he ▸ hm.args, he ▸ hm.results⟩

/-- A change of the native's own evaluation. -/
theorem mapEval (h : Serving ρ K m₀ s m) {f : EvalState → EvalState} (jump : Option Nat)
    (hf : ∀ e, e.jump = s.jump → (f e).index = e.index ∧ (f e).canSkip = e.canSkip ∧ (f e).jump = jump) :
    Serving ρ K m₀ { s with jump := jump } { m with exec := m.exec.mapEval f } := by
  obtain ⟨e, he, hi, hc, hj⟩ := h.eval
  obtain ⟨hi', hc', hj'⟩ := hf e hj
  refine ⟨fun hp => ?_, h.control, ⟨f e, ?_, hi'.trans hi, hc'.trans hc, hj'⟩, fun hp => ?_⟩
  · have hm := h.plain hp
    exact ⟨hm.operands, hm.control, hm.bindings, hm.args, hm.results⟩
  · simp [Exec.mapEval, he]
  · have hq := h.quiet hp
    exact ⟨hq.storage, hq.host, hq.running, hq.cancelled⟩

theorem skipBody (h : Serving ρ K m₀ s m) (hs : ρ.canSkip = true ∨ ρ.lenient) :
    Work.skipBody.Meets (fun _ k => Serving ρ K m₀ s k) (.orderly ρ.lenient waits) m := by
  obtain ⟨e, he, -, hc, -⟩ := h.eval
  have hm := h.mapEval (f := fun e => { e with skip := true }) s.jump fun e hj => ⟨rfl, rfl, hj⟩
  rw [Exec.mapEval, he] at hm
  unfold Meets Work.skipBody
  rw [he]
  by_cases hsk : e.canSkip = true
  · dsimp only
    rw [if_pos hsk]
    exact hm
  · dsimp only
    rw [if_neg hsk]
    exact .inr (hs.resolve_left fun hr => hsk (hc.trans hr))

theorem finish (h : Serving ρ K m₀ s m) {v : Value} (hv : ρ.Allows v) :
    (Work.finish v).Meets (fun _ k => Serving ρ K m₀ s k) (.orderly ρ.lenient waits) m := by
  unfold Work.finish
  rw [meets_modify]
  split
  · exact h
  · rename_i f fs hm
    refine ⟨fun hp => ?_, h.control, h.eval, fun hp => (h.quiet hp).trans ⟨?_, rfl, rfl, rfl⟩⟩
    · have hpl := h.plain hp
      have hargs := hm ▸ hpl.args
      have hres := hm ▸ hpl.results
      rw [List.forall_mem_cons] at hargs hres
      refine ⟨hpl.operands, hpl.control, hpl.bindings, List.forall_mem_cons.mpr hargs,
        List.forall_mem_cons.mpr ⟨fun x hx => ?_, hres.2⟩⟩
      cases hx
      exact hv hp
    · refine Storage.release_scalar ?_
      have hres := (h.plain hp).results f (hm ▸ List.mem_cons_self)
      cases hr : f.result with
      | none => trivial
      | some x => exact hres x hr

theorem declare (h : Serving ρ K m₀ s m) (name : Text) {v : Value} (hv : ρ.Allows v) :
    (Work.declare name v).Meets (fun _ k => Serving ρ K m₀ s k) (.orderly ρ.lenient waits) m := by
  simp only [Work.declare, meets_bind, meets_read, meets_pushVariable]
  split
  · refine ⟨fun hp => ?_, h.control, h.eval, fun hp => (h.quiet hp).trans ⟨rfl, rfl, rfl, rfl⟩⟩
    have hpl := h.plain hp
    exact ⟨hpl.operands, hpl.control, List.forall_mem_cons.mpr ⟨hv hp, hpl.bindings⟩, hpl.args, hpl.results⟩
  · exact .inl ⟨_, _, rfl⟩

theorem assign (h : Serving ρ K m₀ s m) (name : Text) {v : Value} (hv : ρ.Allows v) :
    (Work.assign name v).Meets (fun _ k => Serving ρ K m₀ s k) (.orderly ρ.lenient waits) m := by
  unfold Meets Work.assign
  split
  · exact h
  · rename_i i hi
    refine ⟨fun hp => ?_, h.control, h.eval, fun hp => (h.quiet hp).trans ⟨?_, rfl, rfl, rfl⟩⟩
    · have hpl := h.plain hp
      refine ⟨hpl.operands, hpl.control, fun x hx => ?_, hpl.args, hpl.results⟩
      obtain ⟨j, hj⟩ := List.getElem?_of_mem hx
      rw [List.getElem?_modify] at hj
      cases hb : m.exec.bindings[j]? with
      | none => rw [hb] at hj; cases hj
      | some y =>
        rw [hb] at hj
        simp only [Option.map_eq_map, Option.map_some, Option.some.injEq] at hj
        split at hj
        · rw [← hj]
          exact hv hp
        · rw [← hj]
          exact hpl.bindings y (List.mem_of_getElem? hb)
    · refine Storage.release_scalar ?_
      cases hb : m.exec.bindings[i]? with
      | none => trivial
      | some y => exact (h.plain hp).bindings y (List.mem_of_getElem? hb)

/-- A copy of a value on a stack. -/
theorem copy (h : Serving ρ K m₀ s m) {v : Value} (hv : ρ.flat → m.Plain → v.IsScalar) :
    (onStorage (·.copy v)).Meets (fun x k => ρ.Allows x ∧ Serving ρ K m₀ s k) (.orderly ρ.lenient waits) m := by
  rw [meets_onStorage]
  refine ⟨fun hp => (Storage.copy_scalar (hv hp (h.plain hp))).1, h.of_exec rfl fun hp hpl => ?_⟩
  exact ⟨(Storage.copy_scalar (hv hp hpl)).2, rfl, rfl, rfl⟩

theorem fetch (h : Serving ρ K m₀ s m) (name : Text) :
    (Work.fetch name).Meets (fun v k => (∀ x ∈ v, ρ.Allows x) ∧ Serving ρ K m₀ s k) (.orderly ρ.lenient waits) m := by
  simp only [Work.fetch, meets_bind, meets_read]
  split
  · exact ⟨fun _ hx => (by cases hx), h⟩
  · rename_i x hx
    simp only [meets_bind]
    refine (h.copy fun _ hpl => hpl.bindings x (List.mem_of_find?_eq_some hx)).weaken fun y k hy => ?_
    refine ⟨fun z hz => ?_, hy.2⟩
    cases hz
    exact hy.1

theorem argument (h : Serving ρ K m₀ s m) (i : Int) :
    (Work.argument i).Meets (fun v k => ρ.Allows v ∧ Serving ρ K m₀ s k) (.orderly ρ.lenient waits) m := by
  simp only [Work.argument, meets_bind, meets_read]
  split
  · exact ⟨fun _ => trivial, h⟩
  · rename_i f fs hm
    split
    · rename_i v hv
      refine h.copy fun _ hpl => hpl.args f (hm ▸ List.mem_cons_self) v ?_
      split at hv
      · exact List.mem_of_getElem? hv
      · cases hv
    · exact ⟨fun _ => trivial, h⟩

theorem pushData (h : Serving ρ K m₀ s m) {v : Value} (hv : ρ.Allows v) :
    (pushControl (.data v)).Meets (fun _ k => Serving ρ K m₀ { s with kept := v :: s.kept } k)
      (.orderly ρ.lenient waits) m := by
  rw [meets_pushControl]
  split
  · refine ⟨fun hp => ?_, congrArg _ h.control, h.eval, fun hp => (h.quiet hp).trans ⟨rfl, rfl, rfl, rfl⟩⟩
    have hpl := h.plain hp
    exact ⟨hpl.operands, List.forall_mem_cons.mpr ⟨hv hp, hpl.control⟩, hpl.bindings, hpl.args, hpl.results⟩
  · exact .inl ⟨_, _, rfl⟩

theorem popData {v : Value} {rest : List Value} {jump : Option Nat} (h : Serving ρ K m₀ ⟨v :: rest, jump⟩ m) :
    Work.popData.Meets (fun x k => x = v ∧ Serving ρ K m₀ ⟨rest, jump⟩ k) (.orderly ρ.lenient waits) m := by
  have hc : m.exec.control = .data v :: (framesOf rest ++ K) := h.control
  unfold Meets Work.popData
  rw [hc]
  refine ⟨rfl, fun hp => ?_, rfl, h.eval, fun hp => (h.quiet hp).trans ⟨rfl, rfl, rfl, rfl⟩⟩
  have hpl := h.plain hp
  have hctl := hc ▸ hpl.control
  exact ⟨hpl.operands, (List.forall_mem_cons.mp hctl).2, hpl.bindings, hpl.args, hpl.results⟩

theorem print (h : Serving ρ K m₀ s m) (line : Text) :
    (Work.print line).Meets (fun e k => (∀ x ∈ e, x.isCancellation = false) ∧ Serving ρ K m₀ s k)
      (.orderly ρ.lenient waits) m := by
  unfold Meets Work.print
  split
  · refine ⟨fun x hx => ?_, h⟩
    cases hx
    rfl
  · exact ⟨fun _ hx => (by cases hx), h.of_exec rfl fun _ _ => ⟨rfl, rfl, rfl, rfl⟩⟩

theorem fail (h : Serving ρ K m₀ s m) (x : Error) :
    (Work.fail x).Meets (fun _ k => Serving ρ K m₀ s k) (.orderly ρ.lenient waits) m :=
  h.mapEval s.jump fun _ hj => ⟨rfl, rfl, hj⟩

theorem call {invoke : Invoker} (hw : InvokesWell R ρ.lenient ρ.flat waits invoke) (hr : Restoring invoke)
    (h : Serving ρ K m₀ s m) (hs : m.Scoped) (hp : m.program = p) {c : Option ChainId} (hc : ∀ x ∈ c, R.chains x)
    {args : List Value} (ha : ∀ v ∈ args, ρ.Allows v) :
    (Work.call invoke c args).Meets (fun v k => ρ.Allows v ∧ Serving ρ K m₀ s k) (.orderly ρ.lenient waits) m := by
  cases c with
  | none =>
    simp only [Work.call, meets_bind, meets_pure]
    exact (h.fail .unlinked).weaken fun _ k hk => ⟨fun _ => trivial, hk⟩
  | some c =>
    simp only [Work.call, meets_bind, meets_onStorage, meets_modify]
    have hcopy : ρ.flat → _ := fun hf => Storage.copyAll_scalars (s := m.storage) fun v hv => ha v hv hf
    have hk : Serving ρ K m₀ s { m with storage := (m.storage.copyAll args).2 } :=
      h.of_exec rfl fun hf _ => ⟨(hcopy hf).2, rfl, rfl, rfl⟩
    refine (Outcome.Meets.both
      (hw (m := { m with storage := (m.storage.copyAll args).2 }) (hc c rfl) hs hp hk.plain
        fun v hv hf => (hcopy hf).1 v hv)
      (hr c (m.storage.copyAll args).1 _ hs)).mono (fun r l hl => ?_) (fun _ _ hf => hf.1) (fun _ _ => trivial)
      fun _ hf => hf.1
    obtain ⟨⟨hctl, hflat, hval⟩, hres⟩ := hl
    have hl : Serving ρ K m₀ s l :=
      ⟨fun hf => (hflat hf).1, hctl.trans hk.control, hres.eval ▸ hk.eval, fun hf => (hk.quiet hf).trans (hflat hf).2⟩
    have hfree : Serving ρ K m₀ s { l with storage := l.storage.releaseAll (m.storage.copyAll args).1 } :=
      hl.of_exec rfl fun hf _ => ⟨Storage.releaseAll_scalars (hcopy hf).1, rfl, rfl, rfl⟩
    cases r with
    | ok v => exact ⟨hval v rfl, hfree⟩
    | error e =>
      rw [meets_bind]
      exact (hfree.fail e).weaken fun _ k hk => ⟨fun _ => trivial, hk⟩

end Serving

/-- A permitted request leaves the native at work, with a reply that it expects. -/
theorem answer_serves {invoke : Invoker} (hw : InvokesWell R ρ.lenient ρ.flat waits invoke) (hr : Restoring invoke)
    (hcallee : ∀ c, ρ.callee c → R.chains c) (h : Serving ρ K m₀ s m) (hs : m.Scoped) (hp : m.program = p)
    {r : Request} {k : r.Reply → Private → Prop} (hk : Proc.Permits ρ r k s) :
    (answer invoke r).Meets (fun a l => ∃ s', k a s' ∧ Serving ρ K m₀ s' l) (.orderly ρ.lenient waits) m := by
  cases r with
  | skipBody => exact (h.skipBody hk.1).weaken fun _ l hl => ⟨s, hk.2, hl⟩
  | jumpTo i => exact ⟨_, hk, h.mapEval _ fun _ _ => ⟨rfl, rfl, rfl⟩⟩
  | finish v => exact (h.finish hk.1).weaken fun _ l hl => ⟨s, hk.2, hl⟩
  | fail e => exact (h.fail e).weaken fun _ l hl => ⟨s, hk.2, hl⟩
  | declare name v => exact (h.declare name hk.1).weaken fun _ l hl => ⟨s, hk.2, hl⟩
  | assign name v => exact (h.assign name hk.1).weaken fun ok l hl => ⟨s, hk.2 ok, hl⟩
  | fetch name => exact (h.fetch name).weaken fun v l hl => ⟨s, hk v hl.1, hl.2⟩
  | pushData v => exact (h.pushData hk.1).weaken fun _ l hl => ⟨_, hk.2, hl⟩
  | popData =>
    obtain ⟨kept, jump⟩ := s
    cases kept with
    | nil => exact hk.elim
    | cons v rest =>
      refine h.popData.weaken fun x l hl => ⟨_, ?_, hl.2⟩
      rw [hl.1]
      exact hk
  | argument i => exact (h.argument i).weaken fun v l hl => ⟨s, hk v hl.1, hl.2⟩
  | call c args =>
    refine (h.call hw hr hs hp (fun x hx => hcallee x (hk.1 x hx)) hk.2.1).weaken fun v l hl => ?_
    exact ⟨s, hk.2.2 v hl.1, hl.2⟩
  | glimpse =>
    obtain ⟨e, he, hi, -⟩ := h.eval
    exact ⟨s, hk _ (by simp [he, hi]), h⟩
  | copy v => exact (h.copy fun hf _ => hk.1 hf).weaken fun x l hl => ⟨s, hk.2 x hl.1, hl.2⟩
  | free v => exact ⟨s, hk.2, h.of_exec rfl fun hf _ => ⟨Storage.free_scalar (hk.1 hf), rfl, rfl, rfl⟩⟩
  | print line => exact (h.print line).weaken fun e l hl => ⟨s, hk e hl.1, hl.2⟩
  | _ => exact hk.elim

/-- A native that keeps to the rules does nothing else to the machine. -/
theorem perform_serves {α : Type} {invoke : Invoker} (hw : InvokesWell R ρ.lenient ρ.flat waits invoke)
    (hr : Restoring invoke) (hcallee : ∀ c, ρ.callee c → R.chains c) {q : Proc α} {Q : α → Private → Prop}
    (hq : q.Does ρ Q s) (h : Serving ρ K m₀ s m) (hc : m.exec.calls ≠ []) (hs : m.Scoped) (hp : m.program = p) :
    (perform invoke q).Meets (fun a l => ∃ s', Q a s' ∧ Serving ρ K m₀ s' l) (.orderly ρ.lenient waits) m := by
  induction q generalizing s m with
  | done a => exact ⟨s, hq, h⟩
  | crash f => exact .inr hq
  | ask r go ih =>
    rw [perform, meets_bind']
    refine (Outcome.Meets.both (answer_serves hw hr hcallee h hs hp hq) (answer_tame hr r m hc hs)).mono
      (fun a l hl => ?_) (fun _ _ hf => hf.1) (fun _ _ => trivial) fun _ hf => hf.1
    obtain ⟨⟨s', hq', hl'⟩, hcar, -⟩ := hl
    exact ih a hq' hl' (hcar.calls_ne hc) (hcar.toScoped hc hs) (hcar.program.trans hp)

/-! ## Operands -/

/-- A block of the region was evaluated on `m`, which has kept some values before: on a control stack
    `K`, and on what nested blocks left there, it keeps some now, and it did nothing else there. -/
structure Evaluated (lenient flat : Prop) (d : Definition) (index : Int) (mark : Marker) (bare : Bool)
    (before : List Value) (K : List ControlFrame) (m : Machine) (r : Except Error (Value × Asked)) (k : Machine) :
    Prop where
  control : ∃ kept strays, k.exec.control = framesOf kept ++ (framesOf strays ++ K) ∧
    (strays ≠ [] → lenient ∧ (bare || mark == .closing) = false) ∧
    ∀ v asked, r = .ok (v, asked) → (flat → v.IsScalar) ∧ d.Leaves index before v ⟨kept, asked.jump⟩ mark
  calm : m.Calm flat k

/-- Where nothing is let pass, a block that opens no body leaves the control stack as it found it. -/
theorem Evaluated.control_eq {d : Definition} {index : Int} {bare : Bool} {k : Machine} {v : Value} {asked : Asked}
    (h : Evaluated lenient flat d index .opening bare [] K m (.ok (v, asked)) k) (hl : ¬ lenient)
    (hd : d.type.opens = false) : k.exec.control = K := by
  obtain ⟨kept, strays, hctl, hstrays, hok⟩ := h.control
  have hkept : kept = [] := (hok v asked rfl).2.kept_eq_nil hd
  have hnone : strays = [] := by_contra fun hs => hl (hstrays hs).1
  rw [hctl, hkept, hnone]
  rfl

variable (R lenient flat waits) in
/-- Blocks of the region that are entered as the engine enters them keep to the rules. -/
def EvaluatesWell (eval : Evaluator) : Prop :=
  ∀ {b index mark bare prior kept K m}, R.blocks b → (p.kindOf b).Entered index lenient mark bare prior kept →
    (∀ v ∈ prior, flat → v.IsScalar) → m.Ready p flat → m.exec.control = framesOf kept ++ K →
    (eval b index mark bare prior).Meets (Evaluated lenient flat (p.kindOf b) index mark bare kept K m)
      (.orderly lenient waits) m

/-- Operands were pushed on those of `m`, and nested blocks left some values on its control stack. -/
structure Pushed (lenient flat : Prop) (K : List ControlFrame) (m : Machine) (vs : List Value) (k : Machine) :
    Prop where
  operands : k.exec.operands = vs.reverse ++ m.exec.operands
  control : ∃ strays, k.exec.control = framesOf strays ++ K ∧ (strays ≠ [] → lenient)
  calm : m.Calm flat k
  carries : m.Carries k
  eval : k.exec.eval = m.exec.eval

theorem Pushed.ready {vs : List Value} {k : Machine} (h : Pushed lenient flat K m vs k) (hm : m.Ready p flat) :
    k.Ready p flat :=
  ⟨h.carries.calls_ne hm.calls_ne, h.carries.toScoped hm.calls_ne hm.toScoped, h.carries.program.trans hm.program,
    fun hf => (h.calm hf).1⟩

theorem Pushed.mono {lenient' : Prop} {vs : List Value} {k : Machine} (h : Pushed lenient flat K m vs k)
    (hl : lenient → lenient') : Pushed lenient' flat K m vs k :=
  ⟨h.operands, h.control.imp fun _ hs => ⟨hs.1, fun hn => hl (hs.2 hn)⟩, h.calm, h.carries, h.eval⟩

theorem Pushed.push {vs : List Value} {k : Machine} (h : Pushed lenient flat K m vs k) {v : Value}
    {pass : Prop} (hv : flat → v.IsScalar) :
    (pushOperand v).Meets (fun _ l => Pushed lenient flat K m (vs ++ [v]) l) (.orderly pass waits) k := by
  rw [meets_pushOperand]
  split
  · refine ⟨?_, h.control, fun hf => ?_, h.carries.trans (.of_eq rfl rfl (.refl _) rfl), h.eval⟩
    · simp [h.operands]
    · obtain ⟨hpl, hq⟩ := h.calm hf
      exact ⟨⟨List.forall_mem_cons.mpr ⟨hv hf, hpl.operands⟩, hpl.control, hpl.bindings, hpl.args, hpl.results⟩,
        ⟨hq.storage, hq.host, hq.running, hq.cancelled⟩⟩
  · exact .inl ⟨_, _, rfl⟩

theorem Pushed.pushAll {vs : List Value} {k : Machine} (h : Pushed lenient flat K m vs k) {xs : List Value}
    {pass : Prop} (hx : ∀ x ∈ xs, flat → x.IsScalar) :
    (Work.pushAll xs).Meets (fun _ l => Pushed lenient flat K m (vs ++ xs) l) (.orderly pass waits) k := by
  induction xs generalizing vs k with
  | nil => simpa [Work.pushAll] using h
  | cons x xs ih =>
    rw [List.forall_mem_cons] at hx
    rw [Work.pushAll, meets_bind]
    refine (h.push hx.1).weaken fun _ l hl => ?_
    simpa using ih hl hx.2

/-- Freeing the value of the branch before. -/
theorem Pushed.releasePrior {vs : List Value} {k : Machine} (h : Pushed lenient flat K m vs k) {prior : Option Value}
    {pass : Prop} (hv : ∀ v ∈ prior, flat → v.IsScalar) :
    (Work.releasePrior prior).Meets (fun _ l => Pushed lenient flat K m vs l) (.orderly pass waits) k := by
  cases prior with
  | none => exact h
  | some v =>
    refine ⟨h.operands, h.control, ?_, h.carries.trans (.of_eq rfl rfl (.refl _) rfl), h.eval⟩
    exact h.calm.of_exec rfl (fun hf _ => Storage.release_scalar (hv v rfl hf)) rfl

/-- So many operands were pushed on top of some, unless a nested block failed. -/
def Pushes (lenient flat : Prop) (K : List ControlFrame) (m : Machine) (vs : List Value) (n : Nat)
    (r : Except Error Unit) (k : Machine) : Prop :=
  match r with
  | .ok () => ∃ xs, xs.length = n ∧ Pushed lenient flat K m (vs ++ xs) k
  | .error _ => ∃ xs, Pushed True flat K m xs k

/-- How a block is entered that stands in an argument. -/
theorem entered_argument (ht : lenient ∨ R.Tidy) {b b' : BlockId} {x : Block} {slot : Slot} (hb : R.blocks b)
    (hx : p.blocks[b]? = some x) (hs : slot ∈ x.slots) (hp : slot.payload = .block b') :
    (p.kindOf b').Entered (-1) lenient .opening false none [] := by
  rcases ht with h | h
  · exact .nested h
  · exact .plain (h.arguments hb hx hs hp)

/-- A nested block leaves the operands, and no more than some values on the control stack. -/
theorem Pushed.evaluated {vs : List Value} {k l : Machine} (h : Pushed lenient flat K m vs k)
    {kept strays : List Value} (hc : l.exec.control = framesOf kept ++ (framesOf strays ++ k.exec.control))
    (hs : kept ++ strays ≠ [] → lenient) (hf : k.Calm flat l) (hk : k.Carries l)
    (hv : l.exec.eval = k.exec.eval) (ho : l.exec.operands = k.exec.operands) : Pushed lenient flat K m vs l := by
  obtain ⟨old, hold, hnone⟩ := h.control
  refine ⟨ho.trans h.operands, ⟨kept ++ strays ++ old, ?_, fun hne => ?_⟩, h.calm.trans hf, h.carries.trans hk,
    hv.trans h.eval⟩
  · rw [hc, hold]
    simp [framesOf]
  · by_cases hks : kept ++ strays = []
    · rw [hks] at hne
      exact hnone hne
    · exact hs hks

/-- A slot yields one operand or none. -/
theorem pushSlot_pushes {eval : Evaluator} (he : EvaluatesWell R lenient flat waits eval) (hse : Settling eval)
    (ht : lenient ∨ R.Tidy) {b : BlockId} {x : Block} (hb : R.blocks b) (hx : p.Placed b x) (hm : m.Ready p flat)
    (d : Definition) (index : Int) {s : Slot} (hs : s ∈ x.slots) {vs : List Value} {k : Machine}
    (h : Pushed lenient flat K m vs k) :
    (pushSlot eval d index s).Meets (Pushes lenient flat K m vs (if s.yields then 1 else 0)) (.orderly lenient waits)
      k := by
  have hr := h.ready hm
  have more : ∀ {v : Value} {k' : Machine}, (flat → v.IsScalar) → Pushed lenient flat K m vs k' →
      (pushOperand v >>= fun _ => Pure.pure (.ok ())).Meets (Pushes lenient flat K m vs 1) (.orderly lenient waits) k' :=
    fun {v} k' hv hk' => by
      rw [meets_bind]
      exact (hk'.push hv).weaken fun _ l hl => ⟨[v], rfl, hl⟩
  rw [pushSlot_eq (hx.typed s hs), Slot.yields]
  cases hpay : s.payload with
  | text t | const t => exact more (fun _ => trivial) h
  | definition d => exact ⟨[], rfl, by simpa using h⟩
  | block b' =>
    dsimp only
    rw [meets_bind]
    refine (Outcome.Meets.both
      (he (R.nested hb hx.block hs hpay) (entered_argument ht hb hx.block hs hpay) (fun _ hv => (by cases hv)) hr
        (K := k.exec.control) rfl)
      (hse b' (-1) .opening false none k hr.calls_ne hr.toScoped)).mono (fun r l hl => ?_) (fun _ _ hf => hf.1)
      (fun _ _ => trivial) fun _ hf => hf.1
    obtain ⟨hev, hcar, hv, ho⟩ := hl
    obtain ⟨kept, strays, hctl, hstrays, hok⟩ := hev.control
    cases r with
    | error e => exact ⟨vs, (h.mono fun _ => trivial).evaluated hctl (fun _ => trivial) hev.calm hcar hv ho⟩
    | ok va =>
      obtain ⟨v, asked⟩ := va
      obtain ⟨hscalar, hleaves⟩ := hok v asked rfl
      refine more hscalar (h.evaluated hctl (fun hne => ?_) hev.calm hcar hv ho)
      -- Where nothing is let pass, a nested block opens no body and keeps nothing.
      by_contra hl
      have hkept : kept = [] := hleaves.kept_eq_nil ((ht.resolve_left hl).arguments hb hx.block hs hpay)
      have hnone : strays = [] := by_contra fun h => hl (hstrays h).1
      rw [hkept, hnone] at hne
      exact hne rfl

/-- What the slots of a block yield is as much as those that yield anything. -/
theorem pushSlots_pushes {eval : Evaluator} (he : EvaluatesWell R lenient flat waits eval) (hse : Settling eval)
    (ht : lenient ∨ R.Tidy) {b : BlockId} {x : Block} (hb : R.blocks b) (hx : p.Placed b x) (hm : m.Ready p flat)
    (d : Definition) (index : Int) (is : List Nat) {vs : List Value} {k : Machine}
    (h : Pushed lenient flat K m vs k) :
    (pushSlots eval d b index is).Meets
      (Pushes lenient flat K m vs ((is.filterMap (x.slots[·]?)).filter Slot.yields).length)
      (.orderly lenient waits) k := by
  induction is generalizing vs k with
  | nil => exact ⟨[], rfl, by simpa using h⟩
  | cons i is ih =>
    have hpx : k.program.blocks[b]? = some x := by rw [(h.ready hm).program, hx.block]
    simp only [pushSlots, slotAt, meets_bind, meets_read, hpx, Option.bind_eq_bind, Option.bind_some]
    cases hslot : x.slots[i]? with
    | none =>
      refine (ih h).weaken fun r l hl => ?_
      simpa [hslot] using hl
    | some s =>
      dsimp only
      rw [meets_bind]
      refine (pushSlot_pushes he hse ht hb hx hm d index (List.mem_of_getElem? hslot) h).weaken fun r l hl => ?_
      cases r with
      | error e => exact hl
      | ok _ =>
        obtain ⟨xs, hn, hl⟩ := hl
        refine (ih hl).weaken fun r l hl => ?_
        cases r with
        | error e => exact hl
        | ok _ =>
          obtain ⟨ys, hn', hl⟩ := hl
          refine ⟨xs ++ ys, ?_, by rwa [← List.append_assoc]⟩
          rw [List.filterMap_cons, hslot, List.filter_cons, List.length_append, hn, hn']
          split <;> simp [Nat.add_comm]

theorem hidden_scalar {d : Definition} {mark : Marker} {prior : Option Value} (hp : ∀ v ∈ prior, flat → v.IsScalar) :
    ∀ v ∈ hidden d mark prior, flat → v.IsScalar := by
  intro v hv hf
  unfold hidden at hv
  simp only [List.mem_append, Option.mem_toList] at hv
  rcases hv with ((hv | hv) | hv) | hv
  · split at hv
    · rw [List.mem_singleton.mp hv]
      trivial
    · cases hv
  · split at hv
    · rw [List.mem_singleton.mp hv]
      trivial
    · cases hv
  · split at hv
    · rw [List.mem_singleton.mp hv]
      trivial
    · cases hv
  · exact hp v hv hf

theorem filterMap_range_getElem? {α : Type} (xs : List α) :
    (List.range xs.length).filterMap (xs[·]?) = xs := by
  induction xs with
  | nil => rfl
  | cons x xs ih => simpa [List.range_succ_eq_map, List.filterMap_map, Function.comp_def] using ih

/-- The operands of a block are those that its kind asks for. -/
theorem pushOperands_pushes {eval : Evaluator} (he : EvaluatesWell R lenient flat waits eval) (hse : Settling eval)
    (ht : lenient ∨ R.Tidy) {b : BlockId} {x : Block} (hb : R.blocks b) (hx : p.Placed b x) (index : Int)
    (mark : Marker) (bare : Bool) {prior : Option Value} (hpr : ∀ v ∈ prior, flat → v.IsScalar)
    (hm : m.Ready p flat) :
    (pushOperands eval (p.kindOf b) b index mark bare prior).Meets
      (Pushes (lenient ∧ (bare || mark == .closing) = false) flat m.exec.control m (hidden (p.kindOf b) mark prior)
        (if bare || mark == .closing then 0 else (p.kindOf b).arity)) (.orderly lenient waits) m := by
  have hm₀ : Pushed False flat m.exec.control m [] m :=
    ⟨rfl, ⟨[], rfl, fun h => (h rfl).elim⟩, fun hf => ⟨hm.plain hf, .refl m⟩, .refl m, rfl⟩
  have hhidden : ∀ v ∈ hidden (p.kindOf b) mark prior, flat → v.IsScalar := hidden_scalar hpr
  simp only [pushOperands, pushHidden_eq, meets_bind]
  split
  · simp only [meets_bind, meets_pure]
    exact (hm₀.releasePrior hpr).weaken fun _ k hk => ⟨[], hk.mono False.elim⟩
  · rw [meets_bind]
    refine (hm₀.pushAll hhidden).weaken fun _ k hk => ?_
    rw [List.nil_append] at hk
    show (pushDeclared eval (p.kindOf b) b index mark bare).Meets _ _ k
    unfold pushDeclared
    split
    · exact ⟨[], rfl, by rw [List.append_nil]; exact hk.mono False.elim⟩
    · rename_i hbare
      unfold Meets
      rw [bind_apply, slotCount_eq ((hk.ready hm).program ▸ hx.block)]
      have hpush := pushSlots_pushes he hse ht hb hx hm (p.kindOf b) index (List.range x.slots.length)
        (hk.mono False.elim)
      rw [filterMap_range_getElem?, hx.operands] at hpush
      refine Meets.weaken hpush fun r l hl => ?_
      cases r with
      | error e => exact hl
      | ok _ =>
        obtain ⟨xs, hn, hl⟩ := hl
        exact ⟨xs, hn, hl.mono fun h => ⟨h, by simpa using hbare⟩⟩

/-! ## Natives at work -/

def rulesFor (R : Region p) (lenient flat : Prop) (d : Definition) (index : Int) (mark : Marker) : Rules :=
  { index := index
    canSkip := decide (0 ≤ index) && d.type.opens && mark == .opening
    lenient := lenient
    flat := flat
    callee := R.chains }

def atWork (e : EvalState) (mark : Marker) (args : List Value) (m : Machine) : Machine :=
  { m with exec.eval := some e, journal := ⟨e.block, e.index, mark, args⟩ :: m.journal }

section

variable {b : BlockId} {native : Native} {index : Int} {mark : Marker} {bare : Bool} {prior : Option Value}
  {kept strays vs : List Value} {K : List ControlFrame} {m k : Machine} {L : Prop}

/-- A native of the region that is begun on the operands of its block keeps to the rules. -/
theorem begun_serving (hb : R.blocks b) (hn : (p.kindOf b).Conducts native)
    (he : (p.kindOf b).Entered index lenient mark bare prior kept) (hm : m.Ready p flat)
    (hk : Pushed L flat m.exec.control m (hidden (p.kindOf b) mark prior ++ vs) k)
    (hv : vs.length = if bare || mark == .closing then 0 else (p.kindOf b).arity)
    (hctl : k.exec.control = framesOf kept ++ (framesOf strays ++ K)) :
    let ρ := rulesFor R lenient flat (p.kindOf b) index mark
    let args := (hidden (p.kindOf b) mark prior ++ vs).map k.storage.view
    (native args).Does ρ (fun v s => ρ.Allows v ∧ (p.kindOf b).Leaves ρ.index kept v s mark) ⟨kept, none⟩ ∧
      Serving ρ (framesOf strays ++ K) m ⟨kept, none⟩
        (atWork { block := b, index, canSkip := ρ.canSkip } mark args k) := by
  intro ρ args
  have hready := hk.ready hm
  have hallow : ∀ v ∈ args, ρ.Allows v := by
    intro v hv hf
    obtain ⟨x, hx, rfl⟩ := List.mem_map.mp hv
    have hmem : x ∈ k.exec.operands := by
      rw [hk.operands]
      exact List.mem_append_left _ (List.mem_reverse.mpr hx)
    have hscalar := (hready.plain hf).operands x hmem
    rw [Storage.view_scalar hscalar]
    exact hscalar
  have hops : (p.kindOf b).Operands mark bare (prior.map k.storage.view) args (vs.map k.storage.view) :=
    ⟨by rw [← hidden_view, ← List.map_append], by rw [List.length_map, hv]⟩
  refine ⟨hn ρ mark bare _ kept _ _ (he.viewed k.storage) rfl hops hallow fun hrole c hc => R.called hb hrole hc,
    fun hf => ?_, hctl, ⟨_, rfl, rfl, rfl, rfl⟩, fun hf => ?_⟩
  · have hpl := hready.plain hf
    exact ⟨hpl.operands, hpl.control, hpl.bindings, hpl.args, hpl.results⟩
  · exact (hk.calm hf).2.trans ⟨rfl, rfl, rfl, rfl⟩

/-- What nested blocks left lies below what the block keeps, since it keeps nothing yet if it nests any. -/
theorem Pushed.below (hk : Pushed (lenient ∧ (bare || mark == .closing) = false) flat m.exec.control m vs k)
    {d : Definition} (he : d.Entered index lenient mark bare prior kept) (hctl : m.exec.control = framesOf kept ++ K) :
    ∃ strays, k.exec.control = framesOf kept ++ (framesOf strays ++ K) ∧
      (strays ≠ [] → lenient ∧ (bare || mark == .closing) = false) := by
  obtain ⟨strays, hs, hnone⟩ := hk.control
  refine ⟨strays, ?_, hnone⟩
  by_cases h : strays = []
  · rw [hs, hctl, h]
    rfl
  · rw [hs, hctl, he.kept_eq_nil (hnone h).2]
    rfl

theorem Pushed.window (hk : Pushed lenient flat K m vs k) :
    Work.window m.exec.operands.length k = .done (vs.map k.storage.view) k := by
  rw [window_append hk.operands]
  simp

/-- Calling a native of the region on the operands of its block. -/
theorem callNative_serves {invoke : Invoker} (hw : InvokesWell R lenient flat waits invoke) (hr : Restoring invoke)
    (hb : R.blocks b) (hn : (p.kindOf b).Conducts native)
    (he : (p.kindOf b).Entered index lenient mark bare prior kept) (hm : m.Ready p flat)
    (hk : Pushed L flat m.exec.control m (hidden (p.kindOf b) mark prior ++ vs) k)
    (hv : vs.length = if bare || mark == .closing then 0 else (p.kindOf b).arity)
    (hctl : k.exec.control = framesOf kept ++ (framesOf strays ++ K)) :
    (callNative invoke native
      { block := b, index, canSkip := (rulesFor R lenient flat (p.kindOf b) index mark).canSkip }
      mark m.exec.operands.length).Meets
      (fun r l => ∃ kept', l.exec.control = framesOf kept' ++ (framesOf strays ++ K) ∧ (flat → r.1.IsScalar) ∧
        (p.kindOf b).Leaves index kept r.1 ⟨kept', r.2.jump⟩ mark ∧ m.Calm flat l)
      (.orderly lenient waits) k := by
  let e : EvalState := { block := b, index, canSkip := (rulesFor R lenient flat (p.kindOf b) index mark).canSkip }
  let k₁ := atWork e mark ((hidden (p.kindOf b) mark prior ++ vs).map k.storage.view) k
  have hready := hk.ready hm
  obtain ⟨hdoes, hserve⟩ := begun_serving hb hn he hm hk hv hctl
  have hperform := Outcome.Meets.both
    (perform_serves (m := k₁) hw hr (fun c hc => hc) hdoes hserve hready.calls_ne hready.toScoped hready.program)
    (perform_tame hr (native _) k₁ hready.calls_ne hready.toScoped)
  unfold callNative Meets
  rw [bind_apply, hk.window]
  show (perform invoke (native _) >>= _).Meets _ _ k₁
  rw [meets_bind]
  refine hperform.mono (fun v l hl => ?_) (fun _ _ hf => hf.1) (fun _ _ => trivial) fun _ hf => hf.1
  obtain ⟨⟨s, ⟨hval, hleaves⟩, hl⟩, -, ho⟩ := hl
  obtain ⟨e', he', -, -, hj⟩ := hl.eval
  have hops : l.exec.operands = (hidden (p.kindOf b) mark prior ++ vs).reverse ++ m.exec.operands :=
    ho.trans hk.operands
  let l₁ : Machine := { l with exec.eval := k.exec.eval }
  simp only [meets_bind, meets_read, meets_mapExec, meets_pure]
  show (truncateOperands m.exec.operands.length).Meets _ _ l₁
  unfold Meets
  rw [truncateOperands_append (m := l₁) hops]
  refine ⟨s.kept, hl.control, hval, ?_, fun hf => ?_⟩
  · show (p.kindOf b).Leaves index kept v ⟨s.kept, (l.exec.eval.getD e).jump⟩ mark
    rw [he', Option.getD_some, hj]
    exact hleaves
  · have hpl := hl.plain hf
    have hrel : ∀ v ∈ (hidden (p.kindOf b) mark prior ++ vs).reverse, v.IsScalar :=
      fun v hv => hpl.operands v (hops ▸ List.mem_append_left _ hv)
    refine ⟨⟨fun v hv => hpl.operands v (hops ▸ List.mem_append_right _ hv), hpl.control, hpl.bindings, hpl.args,
      hpl.results⟩, (hl.quiet hf).trans ⟨Storage.releaseAll_scalars hrel, rfl, rfl, rfl⟩⟩

end

/-- A block of the region that is entered as the engine enters it keeps to the rules. -/
theorem evaluateWith_serves {eval : Evaluator} {invoke : Invoker} (he : EvaluatesWell R lenient flat waits eval)
    (hse : Settling eval) (hw : InvokesWell R lenient flat waits invoke) (hr : Restoring invoke) (ht : lenient ∨ R.Tidy) :
    EvaluatesWell R lenient flat waits (evaluateWith eval invoke) := by
  intro b index mark bare prior kept K m hb hent hpr hm hctl
  obtain ⟨x, hx⟩ := R.placed hb
  obtain ⟨native, hnative, hcond⟩ := Definition.conducts_of_standard hx.kind
  have hkind : m.program.kindOf b = p.kindOf b := by rw [hm.program]
  simp only [evaluateWith, kindOf, meets_bind, meets_read, hkind, hnative]
  refine (pushOperands_pushes he hse ht hb hx index mark bare hpr hm).weaken fun r k hk => ?_
  cases r with
  | error e =>
    obtain ⟨xs, hk⟩ := hk
    obtain ⟨strays, hs, -⟩ := hk.control
    simp only [meets_bind, meets_pure]
    unfold Meets
    rw [truncateOperands_append hk.operands]
    refine ⟨⟨strays ++ kept, [], ?_, fun h => (h rfl).elim, fun _ _ h => (by cases h)⟩, fun hf => ?_⟩
    · show k.exec.control = _
      rw [hs, hctl]
      simp [framesOf]
    · obtain ⟨hpl, hq⟩ := hk.calm hf
      have hrel : ∀ v ∈ xs.reverse, v.IsScalar := fun v hv => hpl.operands v (hk.operands ▸ List.mem_append_left _ hv)
      exact ⟨⟨hm.plain hf |>.operands, hpl.control, hpl.bindings, hpl.args, hpl.results⟩,
        hq.trans ⟨Storage.releaseAll_scalars hrel, rfl, rfl, rfl⟩⟩
  | ok _ =>
    obtain ⟨vs, hlen, hk⟩ := hk
    obtain ⟨strays, hcomm, hnone⟩ := hk.below hent hctl
    dsimp only
    rw [meets_bind]
    refine (callNative_serves hw hr hb hcond hent hm hk hlen hcomm).weaken fun r l hl => ?_
    obtain ⟨v, e⟩ := r
    obtain ⟨kept', hctl', hval, hleaves, hcalm⟩ := hl
    dsimp only
    split
    · simp only [meets_bind, meets_release, meets_pure]
      exact ⟨⟨kept', strays, hctl', hnone, fun _ _ h => (by cases h)⟩,
        hcalm.of_exec rfl (fun hf _ => Storage.release_scalar (hval hf)) rfl⟩
    · refine ⟨⟨kept', strays, hctl', hnone, fun v' asked h => ?_⟩, hcalm⟩
      cases h
      refine ⟨hval, ?_⟩
      -- A block inside an argument asks for no jump, so that none is taken there changes nothing.
      by_cases hi : 0 ≤ index
      · rw [if_pos hi]
        exact hleaves
      · rw [if_neg hi]
        cases mark with
        | opening => exact ⟨rfl, hleaves.2⟩
        | closing => cases hent with | closes _ _ _ hi' => exact absurd hi' hi

end Work

end BlockEngine
