/-
  BlockEngine.Proofs.Machine.Twins — two runs in two programs, step by step.

  Two machines are twins if they differ in their programs, in which block each is evaluating, and in
  what was recorded. Work that looks at none of these (`Aloof`) does the same on both. `Beside` compares
  any two works from twins on: they come out alike, at every pause and for every host that does the same
  to both, with results that are related. The first run may be excused by a fault of its own.

  Proved:
  - `Outcome.Beside.alike`: two runs that go beside a third one are `Alike`, if that one needs no excuse.
  - `Work.beside_answer`: all that a native asks for but calls comes out alike, as long as the blocks being
    evaluated are of one kind.
-/

import BlockEngine.Proofs.Machine.Invocation

namespace BlockEngine

/-! ## Machines that differ in their programs -/

def EvalState.anonymous (s : EvalState) : EvalState := { s with block := 0 }

theorem EvalState.eq_of_anonymous {s s' : EvalState} (h : s'.anonymous = s.anonymous) :
    s' = { s with block := s'.block } :=
  congrArg (fun x : EvalState => { x with block := s'.block }) h

def Near (e e' : Option EvalState) : Prop := e'.map EvalState.anonymous = e.map EvalState.anonymous

namespace Machine

def recast (p : Program) (e : Option EvalState) (j : List NativeCall) (m : Machine) : Machine :=
  { m with program := p, exec.eval := e, journal := j }

/-- The machine is the other but for the program, the block being evaluated and the journal. -/
structure Near (m k : Machine) : Prop where
  eval : BlockEngine.Near m.exec.eval k.exec.eval
  eq : k = m.recast k.program k.exec.eval k.journal

theorem Near.symm {m k : Machine} (h : m.Near k) : k.Near m := by
  refine ⟨h.eval.symm, ?_⟩
  rw [h.eq]
  rfl

theorem Near.trans {m k l : Machine} (h : m.Near k) (h' : k.Near l) : m.Near l := by
  refine ⟨h'.eval.trans h.eval, ?_⟩
  rw [h'.eq, h.eq]
  rfl

def Same (m k : Machine) : Prop := k = m.recast k.program m.exec.eval k.journal

end Machine

/-- Two programs, and the faults of a run in the first after which nothing is asked of the other. -/
structure Pairing where
  first : Program
  second : Program
  excuses : Fault → Prop

/-- Two machines with these programs that differ in nothing but the evaluations, which are related. -/
structure Pairing.Twin (t : Pairing) (G : Option EvalState → Option EvalState → Prop) (m k : Machine) : Prop where
  program : m.program = t.first
  evals : G m.exec.eval k.exec.eval
  eq : k = m.recast t.second k.exec.eval k.journal

def These (e e' : Option EvalState) (a b : Option EvalState) : Prop := a = e ∧ b = e'

/-- The evaluations are under way, of blocks of one kind. -/
def Pairing.AtWork (t : Pairing) (a b : Option EvalState) : Prop :=
  ∃ s s', a = some s ∧ b = some s' ∧ s'.anonymous = s.anonymous ∧ t.second.kindOf s'.block = t.first.kindOf s.block

variable {α β α' β' : Type} {t : Pairing} {G G' : Option EvalState → Option EvalState → Prop}

theorem Pairing.AtWork.near {a b : Option EvalState} (h : t.AtWork a b) : Near a b := by
  obtain ⟨s, s', rfl, rfl, h, -⟩ := h
  exact congrArg some h

theorem Pairing.Twin.near {m k : Machine} (h : t.Twin G m k) (hG : ∀ {a b}, G a b → Near a b) : m.Near k := by
  refine ⟨hG h.evals, ?_⟩
  have hp : k.program = t.second := by rw [h.eq]; rfl
  rw [hp]
  exact h.eq

/-- The machine of the second run. -/
theorem Pairing.Twin.recast {m k : Machine} (h : t.Twin G m k) :
    ∃ e j, k = m.recast t.second e j ∧ G m.exec.eval e := ⟨_, _, h.eq, h.evals⟩

/-! ## Outcomes side by side -/

/-- The second outcome is that of the first, from twins to twins, with results that are related. -/
def Outcome.Beside (t : Pairing) (G : Option EvalState → Option EvalState → Prop) (V : α → α' → Prop) :
    Outcome α → Outcome α' → Prop
  | .done a m, o' => ∃ a' k, o' = .done a' k ∧ V a a' ∧ t.Twin G m k
  | .fault f m, o' => t.excuses f ∨ ∃ k, o' = .fault f k ∧ m.Near k
  | .starved m, o' => ∃ k, o' = .starved k ∧ m.Near k
  | .paused m resume, o' => ∃ k resume', o' = .paused k resume' ∧ m.Near k ∧
      ∀ x y, m.MayResume x → k.MayResume y → x.Near y → (resume x).Beside t G V (resume' y)

theorem Outcome.Beside.mono {V V' : α → α' → Prop} {o : Outcome α} {o' : Outcome α'} (h : o.Beside t G V o')
    (hV : ∀ a a', V a a' → V' a a') (hG : ∀ m k, t.Twin G m k → t.Twin G' m k) : o.Beside t G' V' o' := by
  induction o generalizing o' with
  | done a m =>
    obtain ⟨a', k, rfl, ha, hk⟩ := h
    exact ⟨a', k, rfl, hV a a' ha, hG m k hk⟩
  | fault f m => exact h
  | starved m => exact h
  | paused m resume ih =>
    obtain ⟨k, resume', rfl, hk, hr⟩ := h
    exact ⟨k, resume', rfl, hk, fun x y hx hy hxy => ih x (hr x y hx hy hxy)⟩

theorem Outcome.Beside.bind {V : α → α' → Prop} {W : β → β' → Prop} {o : Outcome α} {o' : Outcome α'}
    (h : o.Beside t G V o') {f : α → Machine → Outcome β} {f' : α' → Machine → Outcome β'}
    (hf : ∀ a a' m k, V a a' → t.Twin G m k → (f a m).Beside t G' W (f' a' k)) :
    (o.bind f).Beside t G' W (o'.bind f') := by
  induction o generalizing o' with
  | done a m =>
    obtain ⟨a', k, rfl, ha, hk⟩ := h
    exact hf a a' m k ha hk
  | fault x m =>
    rcases h with hx | ⟨k, rfl, hk⟩
    · exact .inl hx
    · exact .inr ⟨k, rfl, hk⟩
  | starved m =>
    obtain ⟨k, rfl, hk⟩ := h
    exact ⟨k, rfl, hk⟩
  | paused m resume ih =>
    obtain ⟨k, resume', rfl, hk, hr⟩ := h
    exact ⟨k, _, rfl, hk, fun x y hx hy hxy => ih x (hr x y hx hy hxy)⟩

/-- The two outcomes are the same, but for the programs, the blocks being evaluated and the journals. Where there is a
    result, no evaluation of the run is under way any more. -/
def Outcome.Alike : Outcome α → Outcome α → Prop
  | .done a m, o' => ∃ k, o' = .done a k ∧ m.Same k
  | .fault f m, o' => ∃ k, o' = .fault f k ∧ m.Near k
  | .starved m, o' => ∃ k, o' = .starved k ∧ m.Near k
  | .paused m resume, o' => ∃ k resume', o' = .paused k resume' ∧ m.Near k ∧
      ∀ x y, m.MayResume x → k.MayResume y → x.Near y → (resume x).Alike (resume' y)

/-- Two runs are alike that go beside a third one, if that one needs no excuse. -/
theorem Outcome.Beside.alike {t t' : Pairing} {e : Option EvalState} {g o o' : Outcome α}
    (h : g.Beside t (These e e) Eq o) (h' : g.Beside t' (These e e) Eq o')
    (hg : g.Meets (fun _ _ => True) ⟨fun f _ => ¬t.excuses f ∧ ¬t'.excuses f, fun _ => True, fun _ => True⟩) :
    o.Alike o' := by
  induction g generalizing o o' with
  | done a m =>
    obtain ⟨_, k, rfl, rfl, hk⟩ := h
    obtain ⟨_, k', rfl, rfl, hk'⟩ := h'
    refine ⟨k', rfl, ?_⟩
    obtain ⟨x, j, rfl, -, hx⟩ := hk.recast
    obtain ⟨x', j', rfl, -, hx'⟩ := hk'.recast
    rw [hx, hx']
    rfl
  | fault f m =>
    obtain ⟨hf, hf'⟩ := hg
    obtain ⟨k, rfl, hk⟩ := h.resolve_left hf
    obtain ⟨k', rfl, hk'⟩ := h'.resolve_left hf'
    exact ⟨k', rfl, hk.symm.trans hk'⟩
  | starved m =>
    obtain ⟨k, rfl, hk⟩ := h
    obtain ⟨k', rfl, hk'⟩ := h'
    exact ⟨k', rfl, hk.symm.trans hk'⟩
  | paused m resume ih =>
    obtain ⟨k, r, rfl, hk, hr⟩ := h
    obtain ⟨k', r', rfl, hk', hr'⟩ := h'
    refine ⟨k', r', rfl, hk.symm.trans hk', fun x y hx hy hxy => ?_⟩
    -- The third run is resumed on the machine of the first, in its own program.
    let z := x.recast m.program m.exec.eval x.journal
    have hz : m.MayResume z := by
      refine ⟨rfl, ?_⟩
      have hexec := hx.2
      rw [hk.eq] at hexec
      dsimp only [z, Machine.recast] at hexec ⊢
      rw [hexec]
    have hzx : z.Near x := by
      refine ⟨?_, rfl⟩
      rw [hx.2]
      exact hk.eval
    exact ih z (hr z x hz hx hzx) (hr' z y hz hy (hzx.trans hxy)) (hg.2 z hz)

namespace Work

/-- The two works come out alike from twins on. -/
def Beside (t : Pairing) (G G' : Option EvalState → Option EvalState → Prop) (V : α → α' → Prop) (w : Work α)
    (w' : Work α') : Prop := ∀ m k, t.Twin G m k → (w m).Beside t G' V (w' k)

/-- The two works come out alike, and leave the evaluations that were under way. -/
def Twins (t : Pairing) (V : α → α' → Prop) (w : Work α) (w' : Work α') : Prop :=
  ∀ e e', Near e e' → Beside t (These e e') (These e e') V w w'

theorem beside_bind {K : Option EvalState → Option EvalState → Prop} {V : α → α' → Prop} {W : β → β' → Prop}
    {w : Work α} {w' : Work α'} (hw : Beside t G G' V w w') {f : α → Work β} {f' : α' → Work β'}
    (hf : ∀ a a', V a a' → Beside t G' K W (f a) (f' a')) : Beside t G K W (w >>= f) (w' >>= f') := by
  intro m k h
  rw [bind_apply, bind_apply]
  exact (hw m k h).bind fun a a' x y ha hxy => hf a a' ha x y hxy

theorem twins_bind {V : α → α' → Prop} {W : β → β' → Prop} {w : Work α} {w' : Work α'} (hw : Twins t V w w')
    {f : α → Work β} {f' : α' → Work β'} (hf : ∀ a a', V a a' → Twins t W (f a) (f' a')) :
    Twins t W (w >>= f) (w' >>= f') :=
  fun e e' hn => beside_bind (hw e e' hn) fun a a' ha => hf a a' ha e e' hn

/-- What comes out alike whatever the evaluations does so from any that are related. -/
theorem Twins.beside {V : α → α' → Prop} {w : Work α} {w' : Work α'} (hw : Twins t V w w')
    (hG : ∀ {a b}, G a b → Near a b) : Beside t G G V w w' := by
  intro m k h
  refine (hw m.exec.eval k.exec.eval (hG h.evals) m k ⟨h.program, ⟨rfl, rfl⟩, h.eq⟩).mono (fun _ _ => id) ?_
  rintro x y ⟨hp, ⟨hx, hy⟩, heq⟩
  exact ⟨hp, by rw [hx, hy]; exact h.evals, heq⟩

end Work

/-! ## Work that looks at neither -/

/-- The second outcome is the first on another machine. There is no pause. -/
def Outcome.Recasts (f : Machine → Machine) : Outcome α → Outcome α → Prop
  | .done a m, o' => o' = .done a (f m)
  | .fault x m, o' => o' = .fault x (f m)
  | .starved m, o' => o' = .starved (f m)
  | .paused _ _, _ => False

namespace Work

/-- The work neither looks at nor changes the program, the evaluation or the journal. -/
def Aloof (w : Work α) : Prop := ∀ m p e j, (w m).Recasts (·.recast p e j) (w (m.recast p e j))

/-- Such work comes out alike. -/
theorem Aloof.beside {w : Work α} (hw : Aloof w) (hG : ∀ {a b}, G a b → Near a b) : Beside t G G Eq w w := by
  intro m k h
  obtain ⟨e, j, rfl, he⟩ := h.recast
  have hself := hw m m.program m.exec.eval m.journal
  have hother := hw m t.second e j
  have hown : m.recast m.program m.exec.eval m.journal = m := rfl
  rw [hown] at hself
  cases ho : w m with
  | done a x =>
    rw [ho] at hself hother
    have hx : x = x.recast m.program m.exec.eval m.journal := (Outcome.done.inj hself).2
    refine ⟨a, _, hother, rfl, ?_, ?_, rfl⟩
    · rw [hx]
      exact h.program
    · rw [hx]
      exact he
  | fault f x =>
    rw [ho] at hself hother
    have hx : x = x.recast m.program m.exec.eval m.journal := (Outcome.fault.inj hself).2
    refine .inr ⟨_, hother, ?_, rfl⟩
    rw [hx]
    exact hG he
  | starved x =>
    rw [ho] at hself hother
    have hx : x = x.recast m.program m.exec.eval m.journal := Outcome.starved.inj hself
    refine ⟨_, hother, ?_, rfl⟩
    rw [hx]
    exact hG he
  | paused x resume =>
    rw [ho] at hself
    exact hself.elim

theorem Aloof.twins {w : Work α} (hw : Aloof w) : Twins t Eq w w := fun e e' hn =>
  hw.beside fun h => by rw [h.1, h.2]; exact hn

theorem aloof_bind {w : Work α} {f : α → Work β} (hw : Aloof w) (hf : ∀ a, Aloof (f a)) : Aloof (w >>= f) := by
  intro m p e j
  have h := hw m p e j
  rw [bind_apply, bind_apply]
  cases ho : w m with
  | done a x =>
    rw [ho] at h
    rw [show w (m.recast p e j) = _ from h]
    exact hf a x p e j
  | fault f x =>
    rw [ho] at h
    rw [show w (m.recast p e j) = _ from h]
    exact rfl
  | starved x =>
    rw [ho] at h
    rw [show w (m.recast p e j) = _ from h]
    exact rfl
  | paused x resume =>
    rw [ho] at h
    exact h.elim

theorem aloof_pure (a : α) : Aloof (Pure.pure a : Work α) := fun _ _ _ _ => rfl

theorem aloof_crash (f : Fault) : Aloof (crash f : Work α) := fun _ _ _ _ => rfl

theorem aloof_read {f : Machine → α} (hf : ∀ m p e j, f (m.recast p e j) = f m) : Aloof (read f) := by
  intro m p e j
  show Outcome.done _ _ = _
  rw [hf]

theorem aloof_modify {f : Machine → Machine} (hf : ∀ m p e j, f (m.recast p e j) = (f m).recast p e j) :
    Aloof (modify f) := by
  intro m p e j
  show Outcome.done _ _ = _
  rw [hf]

theorem aloof_onStorage (f : Storage → α × Storage) : Aloof (onStorage f) := fun _ _ _ _ => rfl

theorem aloof_release (v : Value) : Aloof (release v) := fun _ _ _ _ => rfl

theorem aloof_releasePrior (prior : Option Value) : Aloof (releasePrior prior) := by
  cases prior with
  | none => exact aloof_pure ()
  | some v => exact aloof_release v

theorem aloof_truncateOperands (k : Nat) : Aloof (truncateOperands k) := fun _ _ _ _ => rfl

/-- Pushing on a stack. -/
theorem aloof_push {room : Machine → Prop} [DecidablePred room] {put : Machine → Machine} {f : Machine → Fault}
    (hroom : ∀ m p e j, room (m.recast p e j) ↔ room m)
    (hput : ∀ m p e j, put (m.recast p e j) = (put m).recast p e j) (hf : ∀ m p e j, f (m.recast p e j) = f m) :
    Aloof fun m => if room m then .done () (put m) else .fault (f m) m := by
  intro m p e j
  dsimp only
  by_cases h : room m
  · rw [if_pos h, if_pos ((hroom m p e j).mpr h), hput]
    exact rfl
  · rw [if_neg h, if_neg (mt (hroom m p e j).mp h), hf]
    exact rfl

theorem aloof_pushOperand (v : Value) : Aloof (pushOperand v) :=
  aloof_push (fun _ _ _ _ => Iff.rfl) (fun _ _ _ _ => rfl) fun _ _ _ _ => rfl

theorem aloof_pushControl (f : ControlFrame) : Aloof (pushControl f) :=
  aloof_push (fun _ _ _ _ => Iff.rfl) (fun _ _ _ _ => rfl) fun _ _ _ _ => rfl

theorem aloof_pushVariable (v : Variable) : Aloof (pushVariable v) :=
  aloof_push (fun _ _ _ _ => Iff.rfl) (fun _ _ _ _ => rfl) fun _ _ _ _ => rfl

theorem aloof_pushCall (f : CallFrame) : Aloof (pushCall f) :=
  aloof_push (fun _ _ _ _ => Iff.rfl) (fun _ _ _ _ => rfl) fun _ _ _ _ => rfl

theorem aloof_popBody : Aloof popBody := by
  intro m p e j
  unfold popBody
  have hcontrol : (m.recast p e j).exec.control = m.exec.control := rfl
  rw [hcontrol]
  split <;> exact rfl

theorem aloof_popData : Aloof popData := by
  intro m p e j
  unfold popData
  have hcontrol : (m.recast p e j).exec.control = m.exec.control := rfl
  rw [hcontrol]
  split <;> exact rfl

theorem aloof_popCall : Aloof popCall := by
  intro m p e j
  unfold popCall
  have hcalls : (m.recast p e j).exec.calls = m.exec.calls := rfl
  rw [hcalls]
  split <;> exact rfl

theorem aloof_finish (v : Value) : Aloof (finish v) := by
  refine aloof_modify fun m p e j => ?_
  have hcalls : (m.recast p e j).exec.calls = m.exec.calls := rfl
  rw [hcalls]
  cases m.exec.calls <;> rfl

theorem aloof_assign (name : Text) (v : Value) : Aloof (assign name v) := by
  intro m p e j
  unfold assign
  have hbindings : (m.recast p e j).exec.bindings = m.exec.bindings := rfl
  rw [hbindings]
  split <;> exact rfl

theorem aloof_declare (name : Text) (v : Value) : Aloof (declare name v) :=
  fun m => aloof_pushVariable ⟨name, v, m.exec.calls.length, m.exec.layer, 0⟩ m

theorem aloof_fetch (name : Text) : Aloof (fetch name) := by
  refine aloof_bind (aloof_read fun _ _ _ _ => rfl) fun x => ?_
  split
  · exact aloof_pure _
  · exact aloof_bind (aloof_onStorage _) fun _ => aloof_pure _

theorem aloof_argument (i : Int) : Aloof (argument i) := by
  refine aloof_bind (aloof_read fun _ _ _ _ => rfl) fun fs => ?_
  split
  · exact aloof_pure _
  · split
    · exact aloof_onStorage _
    · exact aloof_pure _

theorem aloof_print (line : Text) : Aloof (print line) := by
  intro m p e j
  unfold print
  have hhost : (m.recast p e j).host = m.host := rfl
  rw [hhost]
  split <;> exact rfl

theorem aloof_cancelRun (cause : CancelCause) : Aloof (cancelRun cause) := by
  refine aloof_modify fun m p e j => ?_
  have hrunning : (m.recast p e j).exec.running = m.exec.running := rfl
  dsimp only
  rw [hrunning]
  cases m.exec.running <;> rfl

theorem aloof_mapFrame (depth : Nat) (f : CallFrame → CallFrame) : Aloof (mapExec (Exec.mapFrame depth f)) := by
  cases depth <;> exact fun _ _ _ _ => rfl

theorem aloof_tick (k : Nat) : Aloof (tick k) := fun _ _ _ _ => rfl

theorem aloof_openBody (depth i : Nat) (v : Value) : Aloof (openBody depth i v) :=
  aloof_bind (aloof_pushControl _) fun _ => aloof_bind (aloof_read fun _ _ _ _ => rfl) fun _ =>
    aloof_bind (aloof_mapFrame _ _) fun _ => aloof_pure _

theorem aloof_takeBody (depth layer : Nat) : Aloof (takeBody depth layer) :=
  aloof_bind aloof_popBody fun _ => aloof_bind (aloof_modify fun _ _ _ _ => rfl) fun _ =>
    aloof_bind (aloof_mapFrame _ _) fun _ => aloof_pure _

theorem aloof_endCall (depth base : Nat) : Aloof (endCall depth base) := by
  have htake : Aloof (takeResult depth) :=
    aloof_bind (aloof_read fun _ _ _ _ => rfl) fun _ => aloof_bind (aloof_mapFrame _ _) fun _ => aloof_pure _
  exact aloof_bind (aloof_modify fun _ _ _ _ => rfl) fun _ => aloof_bind (aloof_modify fun _ _ _ _ => rfl) fun _ =>
    aloof_bind htake fun _ => aloof_bind aloof_popCall fun _ => aloof_pure _

theorem aloof_pushAll (vs : List Value) : Aloof (pushAll vs) := by
  induction vs with
  | nil => exact aloof_pure ()
  | cons v vs ih => exact aloof_bind (aloof_pushOperand v) fun _ => ih

theorem aloof_pushHidden (d : Definition) (index : Int) (mark : Marker) (prior : Option Value) :
    Aloof (pushHidden d index mark prior) := by
  rw [pushHidden_eq]
  split
  · exact aloof_bind (aloof_releasePrior prior) fun _ => aloof_pure _
  · exact aloof_bind (aloof_pushAll _) fun _ => aloof_pure _

theorem aloof_report (d : Definition) (index : Int) (v : Value) (e : EvalState) : Aloof (report d index (v, e)) := by
  unfold report
  split
  · exact aloof_bind (aloof_release v) fun _ => aloof_pure _
  · exact aloof_pure _

theorem aloof_passOver (depth : Nat) (cursor : Cursor) (t : BlockType) : Aloof (passOver depth cursor t) := by
  unfold passOver
  dsimp only
  split
  · exact aloof_bind (aloof_openBody _ _ _) fun _ => aloof_pure _
  · exact aloof_pure _

/-! ## What natives ask for -/

/-- Waiting comes out alike for hosts that do the same. -/
theorem beside_pause (hG : ∀ {a b}, G a b → Near a b) : Beside t G G Eq pause pause := by
  intro m k h
  refine ⟨k, _, rfl, h.near hG, fun x y hx hy hxy => ?_⟩
  have hex : x.exec.eval = m.exec.eval := by rw [hx.2]
  have hey : y.exec.eval = k.exec.eval := by rw [hy.2]
  have hk : k.program = t.second := by rw [h.eq]; rfl
  refine ⟨(), y, rfl, rfl, hx.1.trans h.program, by rw [hex, hey]; exact h.evals, ?_⟩
  have heq := hxy.eq
  rw [hy.1, hk] at heq
  exact heq

/-- A change to both evaluations, whatever their blocks. -/
theorem beside_mapEval {f : EvalState → EvalState} (hf : ∀ s, f s.anonymous = (f s).anonymous)
    (hb : ∀ s, (f s).block = s.block) :
    Beside t t.AtWork t.AtWork Eq (mapExec (Exec.mapEval f)) (mapExec (Exec.mapEval f)) := by
  intro m k h
  obtain ⟨e, j, rfl, s, s', hs, rfl, hn, hk⟩ := h.recast
  refine ⟨(), _, rfl, rfl, h.program, ⟨f s, f s', ?_, rfl, ?_, ?_⟩, rfl⟩
  · show m.exec.eval.map f = _
    rw [hs]
    rfl
  · rw [← hf, ← hf, hn]
  · rw [hb, hb, hk]

theorem beside_skipBody : Beside t t.AtWork t.AtWork Eq skipBody skipBody := by
  intro m k h
  have hnear := h.near fun h => h.near
  obtain ⟨e, j, rfl, s, s', hs, rfl, hn, hk⟩ := h.recast
  rw [EvalState.eq_of_anonymous hn] at hnear hk ⊢
  unfold skipBody
  rw [hs]
  dsimp only [Machine.recast] at hnear hk ⊢
  split
  · exact ⟨(), _, rfl, rfl, h.program, ⟨_, _, rfl, rfl, rfl, hk⟩, rfl⟩
  · rw [hk, h.program]
    exact .inr ⟨_, rfl, hnear⟩

theorem beside_glimpse : Beside t t.AtWork t.AtWork Eq glimpse glimpse := by
  intro m k h
  obtain ⟨e, j, rfl, s, s', hs, rfl, hn, hk⟩ := h.recast
  refine ⟨_, _, rfl, ?_, h⟩
  rw [EvalState.eq_of_anonymous hn] at hk ⊢
  dsimp only [Machine.recast, Exec.layer, Exec.counts] at hk ⊢
  rw [hs, h.program]
  simp only [Option.map_some, Option.getD_some, hk]

/-- All that a native asks for but calls. -/
theorem beside_answer (invoke invoke' : Invoker) {r : Request} (hr : ∀ c args, r ≠ .call c args) :
    Beside t t.AtWork t.AtWork Eq (answer invoke r) (answer invoke' r) := by
  have haloof : ∀ {β : Type} {w : Work β}, Aloof w → Beside t t.AtWork t.AtWork Eq w w := fun hw =>
    hw.beside fun h => h.near
  cases r with
  | skipBody => exact beside_skipBody
  | jumpTo i => exact beside_mapEval (fun _ => rfl) fun _ => rfl
  | finish v => exact haloof (aloof_finish v)
  | fail e => exact beside_mapEval (fun _ => rfl) fun _ => rfl
  | declare name v => exact haloof (aloof_declare name v)
  | assign name v => exact haloof (aloof_assign name v)
  | fetch name => exact haloof (aloof_fetch name)
  | pushData v => exact haloof (aloof_pushControl _)
  | popData => exact haloof aloof_popData
  | argument i => exact haloof (aloof_argument i)
  | call c args => exact absurd rfl (hr c args)
  | glimpse => exact beside_glimpse
  | view v => exact haloof (aloof_read fun _ _ _ _ => rfl)
  | copy v => exact haloof (aloof_onStorage (·.copy v))
  | newList own items => exact haloof (aloof_onStorage (·.newList own items))
  | place v => exact haloof (aloof_onStorage (·.place v))
  | free v => exact haloof (aloof_modify fun _ _ _ _ => rfl)
  | print line => exact haloof (aloof_print line)
  | report e => exact haloof (aloof_modify fun _ _ _ _ => rfl)
  | tick k => exact haloof (aloof_tick k)
  | keep name v => exact haloof (aloof_modify fun _ _ _ _ => rfl)
  | kept name => exact haloof (aloof_read fun _ _ _ _ => rfl)
  | chainNamed name => exact haloof (aloof_read fun _ _ _ _ => rfl)
  | pause => exact beside_pause fun h => h.near
  | cancelRun cause => exact haloof (aloof_cancelRun cause)

end Work

end BlockEngine
