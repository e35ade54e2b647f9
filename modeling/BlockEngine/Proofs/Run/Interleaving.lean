/-
  BlockEngine.Proofs.Run.Interleaving — runs take turns, whatever the order of steps.

  An interpreter that is in use is held by one caller that has just taken it, or by one run whose
  worker has not cleaned up (`Custody`); an engine's run is the one of its runs that was not joined.
  Every step keeps this so (`Sound`).

  Proved: `runs_take_turns`. After any steps of any number of callers and workers the properties of
  `Orderly` hold.
-/

import BlockEngine.Proofs.Run.Callers

namespace BlockEngine

open Work

/-! ## Custody -/

/-- Things are in use by their holders, each by no more than one. -/
structure Custody {α β : Type} (holding : α → Option β) (inUse : β → Bool) : Prop where
  held : ∀ x, inUse x = true ↔ ∃ h, holding h = some x
  alone : ∀ {x h h'}, holding h = some x → holding h' = some x → h = h'

namespace Custody

variable {α β : Type} [DecidableEq α] [DecidableEq β] {holding : α → Option β} {inUse : β → Bool}
  (hc : Custody holding inUse) {h : α} {x : β}
include hc

theorem take (hx : inUse x = false) (hh : holding h = none) :
    Custody (Function.update holding h (some x)) (Function.update inUse x true) := by
  have hfree : ∀ i, holding i ≠ some x := fun i hi => by
    rw [(hc.held x).mpr ⟨i, hi⟩] at hx
    cases hx
  refine ⟨fun y => ?_, fun {y i j} hi hj => ?_⟩
  · by_cases hy : y = x
    · subst hy
      simpa using ⟨h, by simp⟩
    · rw [Function.update_of_ne hy, hc.held]
      refine exists_congr fun i => ?_
      by_cases hi : i = h
      · subst hi
        simp [hh, Ne.symm hy]
      · rw [Function.update_of_ne hi]
  · by_cases hi' : i = h
    · by_cases hj' : j = h
      · rw [hi', hj']
      · rw [hi', Function.update_self] at hi
        rw [Function.update_of_ne hj', ← hi] at hj
        exact (hfree j hj).elim
    · rw [Function.update_of_ne hi'] at hi
      by_cases hj' : j = h
      · rw [hj', Function.update_self] at hj
        rw [← hj] at hi
        exact (hfree i hi).elim
      · rw [Function.update_of_ne hj'] at hj
        exact hc.alone hi hj

theorem give (hh : holding h = some x) : Custody (Function.update holding h none) (Function.update inUse x false) := by
  refine ⟨fun y => ?_, fun {y i j} hi hj => ?_⟩
  · by_cases hy : y = x
    · subst hy
      simp only [Function.update_self, Bool.false_eq_true, false_iff, not_exists]
      intro i hi
      by_cases hih : i = h
      · simp [hih] at hi
      · rw [Function.update_of_ne hih] at hi
        exact hih (hc.alone hi hh)
    · rw [Function.update_of_ne hy, hc.held]
      refine exists_congr fun i => ?_
      by_cases hi : i = h
      · subst hi
        simp [hh, Ne.symm hy]
      · rw [Function.update_of_ne hi]
  · by_cases hi' : i = h
    · simp [hi'] at hi
    · by_cases hj' : j = h
      · simp [hj'] at hj
      · rw [Function.update_of_ne hi'] at hi
        rw [Function.update_of_ne hj'] at hj
        exact hc.alone hi hj

/-- One holder hands a thing on to another that has nothing. -/
theorem hand (hh : holding h = some x) {k : α} (hk : holding k = none) :
    Custody (Function.update (Function.update holding h none) k (some x)) inUse := by
  have hgiven := (hc.give hh).take (h := k) (x := x) (by simp) (by
    by_cases hkh : k = h
    · simp [hkh]
    · rw [Function.update_of_ne hkh, hk])
  have hsame : Function.update inUse x true = inUse :=
    Function.update_eq_self_iff.mpr ((hc.held x).mpr ⟨h, hh⟩).symm
  rwa [Function.update_idem, hsame] at hgiven

end Custody

/-! ## What holds of a scene -/

def Phase.uncleaned : Phase → Bool
  | .ready _ _ | .paused _ | .ended _ => true
  | .cleaned _ | .closed _ => false

/-- The interpreter that a caller has taken. -/
def Caller.exec? : Caller → Option ExecId
  | .claimed _ x _ | .refused _ x => some x
  | _ => none

/-- The interpreter that a run's worker has yet to clean up. -/
def Run.exec? (run : Run) : Option ExecId := if run.phase.uncleaned then some run.exec else none

/-- The interpreter that a caller has taken or that a run's worker uses. -/
def Scene.holding (s : Scene) : CallerId ⊕ RunId → Option ExecId
  | .inl c => (s.callers c).exec?
  | .inr r => s.world.runs[r]?.bind Run.exec?

def World.engineOf (w : World) (r : RunId) : Option EngineId := w.runs[r]?.map (·.engine)

def World.told (w : World) (r : RunId) : Option Ending := (w.join r).1

/-- What is known of a run by its phase. -/
def Phase.Fair (τ : List Act) (r : RunId) : Phase → Prop
  | .ready _ _ => True
  | .paused resume => ∀ k : Machine, k.exec.running = true → (resume k).Occupies fun e => e.status ≠ .running
  | .ended e => e.status ≠ .running
  | .cleaned e | .closed e => e.status ≠ .running ∧ .cleanUp r ∈ τ

/-- Interpreters are held as they are in use, an engine has the run of it that was not joined, and what
    callers have seen is so. -/
structure Scene.Sound (τ : List Act) (s : Scene) : Prop where
  custody : Custody s.holding s.world.inUse
  current : ∀ v r, s.world.current v = some r ↔ s.world.engineOf r = some v ∧ ¬ Joined τ r
  range : ∀ {c v x cause}, s.callers c = .claimed v x cause → v < s.world.engines.size
  fair : ∀ {r} {run : Run}, s.world.runs[r]? = some run → run.phase.Fair τ r
  joining : ∀ {c r}, s.callers c = .joining r → (s.world.told r).isSome = true
  joined : ∀ {c r}, s.callers c = .joined r → Joined τ r
  freed : ∀ {r}, Joined τ r → (s.world.told r).isSome = true
  reports : ∀ {c r e}, Act.report c r e ∈ τ → s.world.told r = some e

theorem World.told_eq_some {w : World} {r : RunId} {e : Ending} :
    w.told r = some e ↔ ∃ v x, w.runs[r]? = some ⟨v, x, .closed e⟩ := by
  unfold told join
  split
  next v x f h => simp [h]
  next h =>
    refine ⟨fun h => (by cases h), fun ⟨v, x, hr⟩ => (h v x e hr).elim⟩

theorem Phase.Fair.mono {τ τ' : List Act} {r : RunId} {p : Phase} (h : p.Fair τ r) (hτ : τ ⊆ τ') : p.Fair τ' r := by
  cases p with
  | cleaned e => exact ⟨h.1, hτ h.2⟩
  | closed e => exact ⟨h.1, hτ h.2⟩
  | _ => exact h

theorem joined_cons {τ : List Act} {a : Act} {r : RunId} (ha : ∀ c, a ≠ .free c r) : Joined (a :: τ) r ↔ Joined τ r := by
  refine exists_congr fun c => ?_
  simp only [List.mem_cons, or_iff_right_iff_imp]
  exact fun h => (ha c h.symm).elim

namespace Scene.Sound

variable {τ : List Act} {s : Scene}

theorem idle {s : Scene} (h : s.Idle) : s.Sound [] := by
  have hnone : ∀ r : RunId, s.world.runs[r]? = none := fun r => by rw [h.runs]; rfl
  have hfree : ∀ i, s.holding i = none := by
    rintro (c | r)
    · show (s.callers c).exec? = none
      rw [h.callers c]
      rfl
    · show s.world.runs[r]?.bind _ = none
      rw [hnone r]
      rfl
  have hjoined : ∀ r, ¬ Joined [] r := fun r ⟨c, hc⟩ => by cases hc
  constructor
  · exact ⟨fun x => by simp [h.inUse x, hfree], fun {x i j} hi => by simp [hfree] at hi⟩
  · intro v r
    simp [h.current v, World.engineOf, hnone r]
  · intro c v x cause hc
    simp [h.callers c] at hc
  · intro r run hr
    simp [hnone r] at hr
  · intro c r hc
    simp [h.callers c] at hc
  · intro c r hc
    simp [h.callers c] at hc
  · exact fun hr => (hjoined _ hr).elim
  · intro c r e hr
    cases hr

end Scene.Sound

/-! ## What a step changes -/

namespace World

variable {w w' : World}

theorem inUse_set {x : ExecId} (hx : x < w.execs.size) (e : Exec) :
    (w.setExec x e).inUse = Function.update w.inUse x e.running := by
  funext y
  rw [w.inUse_setExec x y e, Function.update_apply]
  by_cases hxy : x = y
  · simp [hxy, hxy ▸ hx]
  · simp [hxy, Ne.symm hxy]

theorem inUse_absorb {x : ExecId} {m : Machine} (hx : w.inUse x = true) (hm : m.exec.running = true) :
    (w.absorb x m).inUse = w.inUse := by
  have hset : (w.absorb x m).inUse = (w.setExec x m.exec).inUse := rfl
  rw [hset, inUse_set (w.lt_of_inUse hx), hm]
  exact Function.update_eq_self_iff.mpr hx.symm

theorem claimExec_eq_ok {x : ExecId} :
    w.claimExec x = .ok w' ↔ w.inUse x = false ∧ w' = w.setExec x { w.exec x with running := true } := by
  unfold claimExec inUse
  cases (w.exec x).running
  · simp [eq_comm]
  · simp

def started (w : World) (v : EngineId) (x : ExecId) (cause : Option CancelCause) : World :=
  { w.mapEngine v fun e => { e with current := some w.runs.size } with
    runs := w.runs.push { engine := v, exec := x, phase := .ready (w.engine v).chains cause } }

section

variable {v : EngineId} {x : ExecId} {cause : Option CancelCause}

theorem claimEngine_eq_ok {r : RunId} :
    w.claimEngine v x cause = .ok (r, w') ↔ w.current v = none ∧ r = w.runs.size ∧ w' = w.started v x cause := by
  unfold claimEngine current started
  cases (w.engine v).current with
  | none => simp [eq_comm]
  | some r => simp

theorem runs_started (i : RunId) : (w.started v x cause).runs[i]? =
    if i = w.runs.size then some ⟨v, x, .ready (w.engine v).chains cause⟩ else w.runs[i]? := by
  rw [started, Array.getElem?_push]

theorem told_started (i : RunId) : (w.started v x cause).told i = w.told i := by
  ext e
  rw [told_eq_some, told_eq_some, runs_started]
  by_cases hi : i = w.runs.size
  · simp [hi]
  · simp [hi]

theorem engineOf_started (i : RunId) :
    (w.started v x cause).engineOf i = if i = w.runs.size then some v else w.engineOf i := by
  rw [engineOf, runs_started]
  split
  · rfl
  · rfl

theorem engineOf_size : w.engineOf w.runs.size = none := by
  simp [engineOf]

theorem told_size : w.told w.runs.size = none := by
  ext e
  simp [told_eq_some]

end

theorem lt_of_current {v : EngineId} {r : RunId} (h : w.current v = some r) : v < w.engines.size := by
  by_cases hv : v < w.engines.size
  · exact hv
  · simp [current, engine, hv] at h

theorem runs_join (r : RunId) : (w.join r).2.runs = w.runs := by
  unfold join
  split <;> rfl

theorem told_join (r i : RunId) : (w.join r).2.told i = w.told i := by
  ext e
  rw [told_eq_some, told_eq_some, runs_join]

theorem join_snd {v : EngineId} {x : ExecId} {e : Ending} {r : RunId} (hr : w.runs[r]? = some ⟨v, x, .closed e⟩) :
    (w.join r).2 = w.mapEngine v fun y => if y.current = some r then { y with current := none } else y := by
  simp [join, hr]

/-- Joining a run takes it from its engine, and no other. -/
theorem current_join {v : EngineId} {x : ExecId} {e : Ending} {r : RunId} (hr : w.runs[r]? = some ⟨v, x, .closed e⟩)
    (u : EngineId) : (w.join r).2.current u = if v = u ∧ w.current v = some r then none else w.current u := by
  rw [join_snd hr, current_mapEngine]
  by_cases hu : v = u
  · subst hu
    by_cases hcur : w.current v = some r
    · have hv : v < w.engines.size := lt_of_current hcur
      simp only [hv, hcur, and_self, if_true]
      rw [if_pos (show (w.engine v).current = some r from hcur)]
    · simp only [hcur, and_false, if_false]
      split
      · rw [if_neg (show ¬ (w.engine v).current = some r from hcur)]
        rfl
      · rfl
  · simp [hu]

theorem runs_setPhase_eq {r : RunId} {run : Run} (hr : w.runs[r]? = some run) (p : Phase) (i : RunId) :
    (w.setPhase r p).runs[i]? = if i = r then some { run with phase := p } else w.runs[i]? := by
  by_cases hi : i = r
  · subst hi
    rw [if_pos rfl, runs_setPhase hr]
  · rw [if_neg hi, w.runs_setPhase_of_ne (Ne.symm hi)]

theorem cleanUp_eq {r : RunId} {v : EngineId} {x : ExecId} {e : Ending} (hr : w.runs[r]? = some ⟨v, x, .ended e⟩) :
    ∃ m, w.cleanUp r = (w.absorb x m).setPhase r (.cleaned e) ∧ m.exec.running = false := by
  obtain ⟨m, hm, hrunning⟩ : ∃ m, Work.cleanUp (w.machine x) = .done () m ∧ m.exec.running = false := ⟨_, rfl, rfl⟩
  exact ⟨m, by simp [cleanUp, hr, hm], hrunning⟩

theorem runs_cleanUp {r : RunId} {v : EngineId} {x : ExecId} {e : Ending} (hr : w.runs[r]? = some ⟨v, x, .ended e⟩) :
    (w.cleanUp r).runs[r]? = some ⟨v, x, .cleaned e⟩ := by
  obtain ⟨m, hm, -⟩ := cleanUp_eq hr
  rw [hm]
  exact runs_setPhase (w := w.absorb x m) hr _

theorem close_eq {r : RunId} {v : EngineId} {x : ExecId} {e : Ending} (hr : w.runs[r]? = some ⟨v, x, .cleaned e⟩) :
    w.close r = w.setPhase r (.closed e) := by
  simp [close, hr]

theorem runs_close {r : RunId} {v : EngineId} {x : ExecId} {e : Ending} (hr : w.runs[r]? = some ⟨v, x, .cleaned e⟩) :
    (w.close r).runs[r]? = some ⟨v, x, .closed e⟩ := by
  rw [close_eq hr, runs_setPhase hr]

/-- What a stretch of work comes to. -/
theorem settle_eq {r : RunId} {x : ExecId} {o : Outcome Ending} (ho : o.Occupies fun e => e.status ≠ .running) :
    ∃ m p, w.settle r x o = (w.absorb x m).setPhase r p ∧ m.exec.running = true ∧ p.uncleaned = true ∧
      ∀ τ, p.Fair τ r := by
  cases o with
  | done e m => exact ⟨m, _, rfl, ho.2, rfl, fun _ => ho.1⟩
  | fault f m => exact ⟨m, _, rfl, ho, rfl, fun _ h => (by cases h)⟩
  | paused m resume => exact ⟨m, _, rfl, ho.1, rfl, fun _ => ho.2⟩
  | starved m => exact ⟨m, _, rfl, ho, rfl, fun _ _ hk => hk⟩

end World

namespace Scene

variable {τ : List Act} {s : Scene}

theorem holding_turn {w : World} (hw : w.runs = s.world.runs) (c : CallerId) (caller : Caller) :
    (s.turn c caller w).holding = Function.update s.holding (.inl c) caller.exec? := by
  funext i
  rcases i with d | r
  · by_cases hd : d = c
    · subst hd
      simp [holding, turn]
    · simp [holding, turn, hd]
  · simp [holding, turn, hw]

theorem holding_setPhase {w : World} {r : RunId} {run : Run} {p : Phase} (hr : s.world.runs[r]? = some run)
    (hw : w.runs = (s.world.setPhase r p).runs) :
    (⟨w, s.callers⟩ : Scene).holding = Function.update s.holding (.inr r) (Run.exec? { run with phase := p }) := by
  funext i
  rcases i with c | i
  · simp [holding]
  · show w.runs[i]?.bind Run.exec? = _
    rw [hw, World.runs_setPhase_eq hr]
    by_cases hi : i = r
    · subst hi
      simp
    · simp [hi, holding]

/-- After a step that changes no run and frees no engine. -/
theorem Sound.still (h : s.Sound τ) {a : Act} (hfree : ∀ c r, a ≠ .free c r)
    (hreport : ∀ c r e, a = .report c r e → s.world.told r = some e) {s' : Scene}
    (hruns : s'.world.runs = s.world.runs) (hcustody : Custody s'.holding s'.world.inUse)
    (hcurrent : ∀ v, s'.world.current v = s.world.current v) (hsize : s.world.engines.size ≤ s'.world.engines.size)
    (hrange : ∀ c v x cause, s'.callers c = .claimed v x cause → v < s.world.engines.size)
    (hjoining : ∀ c r, s'.callers c = .joining r → (s.world.told r).isSome = true)
    (hjoined : ∀ c r, s'.callers c = .joined r → Joined τ r) : s'.Sound (a :: τ) := by
  have htold : ∀ r, s'.world.told r = s.world.told r := fun r => by
    ext e
    rw [World.told_eq_some, World.told_eq_some, hruns]
  have hj : ∀ r, Joined (a :: τ) r ↔ Joined τ r := fun r => joined_cons fun c => hfree c r
  constructor
  · exact hcustody
  · intro v r
    rw [hcurrent, World.engineOf, hruns, hj, h.current]
    rfl
  · exact fun hc => Nat.lt_of_lt_of_le (hrange _ _ _ _ hc) hsize
  · intro r run hr
    exact (h.fair (hruns ▸ hr)).mono (List.subset_cons_self a τ)
  · intro c r hc
    rw [htold]
    exact hjoining c r hc
  · exact fun hc => (hj _).mpr (hjoined _ _ hc)
  · intro r hr
    rw [htold]
    exact h.freed ((hj r).mp hr)
  · intro c r e hr
    rw [htold]
    rcases List.mem_cons.mp hr with hr | hr
    · exact hreport c r e hr.symm
    · exact h.reports hr

/-- After a step that changes nothing. -/
theorem Sound.same (h : s.Sound τ) {a : Act} (hfree : ∀ c r, a ≠ .free c r) (hreport : ∀ c r e, a ≠ .report c r e) :
    s.Sound (a :: τ) :=
  h.still hfree (fun c r e he => (hreport c r e he).elim) rfl h.custody (fun _ => rfl) (Nat.le_refl _)
    (fun _ _ _ _ => h.range) (fun _ _ => h.joining) fun _ _ => h.joined

/-- After the step of a caller that changes no run and frees no engine. -/
theorem Sound.turned (h : s.Sound τ) {a : Act} (hfree : ∀ c r, a ≠ .free c r)
    (hreport : ∀ c r e, a = .report c r e → s.world.told r = some e) {c : CallerId} {caller : Caller} {w : World}
    (hruns : w.runs = s.world.runs) (hengines : w.engines = s.world.engines)
    (hcustody : Custody (Function.update s.holding (.inl c) caller.exec?) w.inUse)
    (hrange : ∀ v x cause, caller = .claimed v x cause → v < s.world.engines.size)
    (hjoining : ∀ r, caller = .joining r → (s.world.told r).isSome = true) (hjoined : ∀ r, caller ≠ .joined r) :
    (s.turn c caller w).Sound (a :: τ) := by
  have hcallers : ∀ d new, (s.turn c caller w).callers d = new → s.callers d = new ∨ caller = new := by
    intro d new hd
    by_cases hdc : d = c
    · simp only [turn, hdc, Function.update_self] at hd
      exact .inr hd
    · simp only [turn, Function.update_of_ne hdc] at hd
      exact .inl hd
  refine h.still hfree hreport hruns ?_ (fun v => ?_) (Nat.le_of_eq (congrArg Array.size hengines).symm) ?_ ?_ ?_
  · rw [holding_turn hruns]
    exact hcustody
  · show (w.engines[v]?.getD _).current = (s.world.engines[v]?.getD _).current
    rw [hengines]
  · exact fun d v x cause hd => (hcallers d _ hd).elim h.range (hrange v x cause)
  · exact fun d r hd => (hcallers d _ hd).elim h.joining (hjoining r)
  · exact fun d r hd => (hcallers d _ hd).elim h.joined fun hr => (hjoined r hr).elim

/-- After a step of a worker. -/
theorem Sound.phased (h : s.Sound τ) {a : Act} (hfree : ∀ c r, a ≠ .free c r) (hreport : ∀ c r e, a ≠ .report c r e)
    {w : World} {r : RunId} {run : Run} {p : Phase}
    (hr : s.world.runs[r]? = some run) (hopen : s.world.told r = none) (hruns : w.runs = (s.world.setPhase r p).runs)
    (hcurrent : ∀ v, w.current v = s.world.current v) (hsize : s.world.engines.size ≤ w.engines.size)
    (hcustody : Custody (Function.update s.holding (.inr r) (Run.exec? { run with phase := p })) w.inUse)
    (hfair : p.Fair (a :: τ) r) : (⟨w, s.callers⟩ : Scene).Sound (a :: τ) := by
  have hj : ∀ i, Joined (a :: τ) i ↔ Joined τ i := fun i => joined_cons fun c => hfree c i
  have hi : ∀ i, w.runs[i]? = if i = r then some { run with phase := p } else s.world.runs[i]? := fun i => by
    rw [hruns, World.runs_setPhase_eq hr]
  -- The run was not closed, so what is told of closed runs still is.
  have htold : ∀ i e, s.world.told i = some e → w.told i = some e := by
    intro i e he
    have hir : i ≠ r := by
      rintro rfl
      rw [hopen] at he
      cases he
    rw [World.told_eq_some] at he ⊢
    rwa [hi, if_neg hir]
  have hsome : ∀ i, (s.world.told i).isSome = true → (w.told i).isSome = true := by
    intro i he
    obtain ⟨e, he⟩ := Option.isSome_iff_exists.mp he
    rw [htold i e he]
    rfl
  constructor
  · rw [holding_setPhase hr hruns]
    exact hcustody
  · intro v i
    have hengine : w.engineOf i = s.world.engineOf i := by
      unfold World.engineOf
      rw [hi]
      split
      next hir => simp [hir, hr]
      next => rfl
    show w.current v = some i ↔ w.engineOf i = some v ∧ _
    rw [hcurrent, h.current, hj, hengine]
  · intro c v x cause hc
    exact Nat.lt_of_lt_of_le (h.range hc) hsize
  · intro i run' hrun'
    rw [show (⟨w, s.callers⟩ : Scene).world.runs[i]? = _ from hi i] at hrun'
    by_cases hir : i = r
    · subst hir
      rw [if_pos rfl] at hrun'
      cases hrun'
      exact hfair
    · rw [if_neg hir] at hrun'
      exact (h.fair hrun').mono (List.subset_cons_self a τ)
  · exact fun hc => hsome _ (h.joining hc)
  · exact fun hc => (hj _).mpr (h.joined hc)
  · exact fun hf => hsome _ (h.freed ((hj _).mp hf))
  · exact fun {c i e} he => htold i e (h.reports ((List.mem_cons.mp he).resolve_left fun h => hreport c i e h.symm))

/-! ### Callers -/

section

variable {c : CallerId} {v : EngineId} {x : ExecId} {r : RunId}

theorem holding_caller (s : Scene) (c : CallerId) : s.holding (.inl c) = (s.callers c).exec? := rfl

theorem Sound.claimExec (h : s.Sound τ) (cause : Option CancelCause) {w : World} (hc : s.callers c = .idle)
    (hv : v < s.world.engines.size) (hx : x < s.world.execs.size) (hw : s.world.claimExec x = .ok w) :
    (s.turn c (.claimed v x cause) w).Sound (.claimExec c v x :: τ) := by
  obtain ⟨hfree, rfl⟩ := World.claimExec_eq_ok.mp hw
  refine h.turned (by simp) (by simp) rfl rfl ?_ ?_ (by simp) (by simp)
  · rw [World.inUse_set hx]
    exact h.custody.take hfree (by rw [holding_caller, hc]; rfl)
  · intro u y cause' hu
    cases hu
    exact hv

theorem Sound.engineBusy (h : s.Sound τ) {cause : Option CancelCause} (hc : s.callers c = .claimed v x cause) :
    (s.turn c (.refused v x) s.world).Sound (.engineBusy c v x :: τ) := by
  refine h.turned (by simp) (by simp) rfl rfl ?_ (by simp) (by simp) (by simp)
  have hheld : s.holding (.inl c) = some x := by
    rw [holding_caller, hc]
    rfl
  rw [Function.update_eq_self_iff.mpr hheld.symm]
  exact h.custody

theorem Sound.giveBack (h : s.Sound τ) (hc : s.callers c = .refused v x) :
    (s.turn c .idle (s.world.unclaimExec x)).Sound (.giveBack c v x :: τ) := by
  have hheld : s.holding (.inl c) = some x := by
    rw [holding_caller, hc]
    rfl
  have hx : x < s.world.execs.size := s.world.lt_of_inUse ((h.custody.held x).mpr ⟨_, hheld⟩)
  refine h.turned (by simp) (by simp) rfl rfl ?_ (by simp) (by simp) (by simp)
  rw [World.unclaimExec, World.inUse_set hx]
  exact h.custody.give hheld

/-- A caller that holds nothing before and after leaves custody as it is. -/
theorem Sound.custody_turn (h : s.Sound τ) {caller : Caller} (hc : (s.callers c).exec? = none)
    (hcaller : caller.exec? = none) : Custody (Function.update s.holding (.inl c) caller.exec?) s.world.inUse := by
  rw [hcaller, Function.update_eq_self_iff.mpr]
  · exact h.custody
  · rw [holding_caller, hc]

theorem Sound.seeClosed (h : s.Sound τ) (hc : s.callers c = .idle) (hr : (s.world.join r).1.isSome = true) :
    (s.turn c (.joining r) s.world).Sound (.seeClosed c r :: τ) := by
  refine h.turned (by simp) (by simp) rfl rfl (h.custody_turn (by rw [hc]; rfl) rfl) (by simp) ?_ (by simp)
  intro i hi
  cases hi
  exact hr

theorem Sound.report (h : s.Sound τ) {e : Ending} (hc : s.callers c = .joined r) (he : (s.world.join r).1 = some e) :
    (s.turn c .idle s.world).Sound (.report c r e :: τ) := by
  refine h.turned (by simp) ?_ rfl rfl (h.custody_turn (by rw [hc]; rfl) rfl) (by simp) (by simp) (by simp)
  intro d i e' hd
  cases hd
  exact he

/-- An engine that is taken for a new run has that one, and its worker the interpreter. -/
theorem Sound.claimEngine (h : s.Sound τ) {cause : Option CancelCause} {w : World}
    (hc : s.callers c = .claimed v x cause) (hw : s.world.claimEngine v x cause = .ok (r, w)) :
    (s.turn c .idle w).Sound (.claimEngine c v x r :: τ) := by
  obtain ⟨hnone, rfl, rfl⟩ := World.claimEngine_eq_ok.mp hw
  have hj : ∀ i, Joined (.claimEngine c v x s.world.runs.size :: τ) i ↔ Joined τ i := fun i => joined_cons (by simp)
  have hcallers : ∀ {d caller}, caller ≠ .idle → Function.update s.callers c .idle d = caller → s.callers d = caller := by
    intro d caller hne hd
    by_cases hdc : d = c
    · simp only [hdc, Function.update_self] at hd
      exact (hne hd.symm).elim
    · rwa [Function.update_of_ne hdc] at hd
  constructor
  · have hhand := h.custody.hand (h := .inl c) (x := x) (k := .inr s.world.runs.size)
      (by rw [holding_caller, hc]; rfl) (by simp [holding])
    refine (congrArg (Custody · _) ?_).mpr hhand
    funext i
    rcases i with d | i
    · by_cases hd : d = c
      · simp [holding, turn, hd, Caller.exec?]
      · simp [holding, turn, hd]
    · show Option.bind _ _ = _
      simp only [turn, World.runs_started]
      by_cases hi : i = s.world.runs.size
      · simp [hi, Run.exec?, Phase.uncleaned]
      · simp [hi, holding]
  · intro u i
    have hcurrent : (s.world.started v x cause).current u =
        if v = u ∧ v < s.world.engines.size then some s.world.runs.size else s.world.current u :=
      s.world.current_mapEngine v u _
    show (s.world.started v x cause).current u = some i ↔ (s.world.started v x cause).engineOf i = some u ∧ _
    rw [hcurrent, World.engineOf_started, hj]
    -- No run had the new run's name, and the engine had none that was not joined.
    have hnew : ¬ Joined τ s.world.runs.size := fun hn => by
      have := h.freed hn
      simp [World.told_size] at this
    by_cases hu : v = u
    · subst hu
      have hold := h.current v i
      simp only [h.range hc, and_self, if_true, Option.some.injEq]
      rw [hnone] at hold
      by_cases hi : i = s.world.runs.size
      · simp [hi, hnew]
      · simpa [hi, Ne.symm hi] using hold
    · simp only [hu, false_and, if_false]
      rw [h.current]
      by_cases hi : i = s.world.runs.size
      · simp [hi, hu, World.engineOf_size]
      · simp [hi]
  · intro d u y cause' hd
    have hsize : (s.world.started v x cause).engines.size = s.world.engines.size := by simp [World.started, World.mapEngine]
    show u < (s.world.started v x cause).engines.size
    rw [hsize]
    exact h.range (hcallers (by simp) hd)
  · intro i run hrun
    rw [show (s.turn c .idle (s.world.started v x cause)).world.runs[i]? = _ from World.runs_started i] at hrun
    split at hrun
    · cases hrun
      trivial
    · exact (h.fair hrun).mono (List.subset_cons_self _ τ)
  · intro d i hd
    show ((s.world.started v x cause).told i).isSome = true
    rw [World.told_started]
    exact h.joining (hcallers (by simp) hd)
  · exact fun hd => (hj _).mpr (h.joined (hcallers (by simp) hd))
  · intro i hi
    show ((s.world.started v x cause).told i).isSome = true
    rw [World.told_started]
    exact h.freed ((hj i).mp hi)
  · intro d i e hd
    show (s.world.started v x cause).told i = some e
    rw [World.told_started]
    exact h.reports ((List.mem_cons.mp hd).resolve_left (by simp))

/-- A run that is joined is no engine's any more. -/
theorem Sound.free (h : s.Sound τ) (hc : s.callers c = .joining r) :
    (s.turn c (.joined r) (s.world.join r).2).Sound (.free c r :: τ) := by
  obtain ⟨e, he⟩ := Option.isSome_iff_exists.mp (h.joining hc)
  obtain ⟨v, x, hr⟩ := World.told_eq_some.mp he
  have hj : ∀ i, Joined (.free c r :: τ) i ↔ i = r ∨ Joined τ i := by
    intro i
    simp only [Joined, List.mem_cons, exists_or, Act.free.injEq]
    simp
  have hworld := World.join_snd hr
  have hcallers : ∀ {d caller}, Function.update s.callers c (.joined r) d = caller → s.callers d = caller ∨ caller = .joined r := by
    intro d caller hd
    by_cases hdc : d = c
    · simp only [hdc, Function.update_self] at hd
      exact .inr hd.symm
    · rw [Function.update_of_ne hdc] at hd
      exact .inl hd
  constructor
  · rw [holding_turn (World.runs_join r)]
    show Custody _ (World.inUse _)
    rw [hworld]
    exact h.custody_turn (by rw [hc]; rfl) rfl
  · intro u i
    show (s.world.join r).2.current u = some i ↔ (s.world.join r).2.engineOf i = some u ∧ _
    have hengine : (s.world.join r).2.engineOf i = s.world.engineOf i := by
      rw [World.engineOf, World.runs_join]
      rfl
    rw [hengine, hj, World.current_join hr]
    have hengine_r : s.world.engineOf r = some v := by simp [World.engineOf, hr]
    split
    next hcur =>
      obtain ⟨rfl, hcur⟩ := hcur
      simp only [reduceCtorEq, not_or, false_iff, not_and, not_not]
      intro hi hir
      by_contra hni
      have hnow : s.world.current v = some i := (h.current v i).mpr ⟨hi, hni⟩
      rw [hcur] at hnow
      exact hir (Option.some.inj hnow).symm
    next hcur =>
      rw [h.current]
      refine and_congr_right fun hi => ?_
      have hir : ¬ Joined τ i → i ≠ r := by
        rintro hni rfl
        obtain rfl : v = u := Option.some.inj (hengine_r.symm.trans hi)
        exact hcur ⟨rfl, (h.current v i).mpr ⟨hi, hni⟩⟩
      simp only [not_or]
      exact ⟨fun hni => ⟨hir hni, hni⟩, fun hni => hni.2⟩
  · intro d u y cause' hd
    show u < (s.world.join r).2.engines.size
    rw [hworld]
    simpa [World.mapEngine] using h.range ((hcallers hd).resolve_right (by simp))
  · intro i run hrun
    have hrun' : s.world.runs[i]? = some run := by
      rw [← World.runs_join r]
      exact hrun
    exact (h.fair hrun').mono (List.subset_cons_self _ τ)
  · intro d i hd
    show ((s.world.join r).2.told i).isSome = true
    rw [World.told_join]
    exact h.joining ((hcallers hd).resolve_right (by simp))
  · intro d i hd
    rw [hj]
    rcases hcallers hd with hd | hd
    · exact .inr (h.joined hd)
    · cases hd
      exact .inl rfl
  · intro i hi
    show ((s.world.join r).2.told i).isSome = true
    rw [World.told_join]
    rcases (hj i).mp hi with rfl | hi
    · exact h.joining hc
    · exact h.freed hi
  · intro d i e hd
    show (s.world.join r).2.told i = some e
    rw [World.told_join]
    exact h.reports ((List.mem_cons.mp hd).resolve_left (by simp))

end

/-! ### Workers -/

section

variable {r : RunId} {run : Run}

theorem holding_run (hr : s.world.runs[r]? = some run) : s.holding (.inr r) = run.exec? := by
  simp [holding, hr]

theorem told_of_open (hr : s.world.runs[r]? = some run) (hopen : ∀ e, run.phase ≠ .closed e) : s.world.told r = none := by
  ext e
  rw [World.told_eq_some, hr]
  simp only [reduceCtorEq, iff_false, not_exists]
  rintro v x he
  cases he
  exact hopen e rfl

theorem Sound.others (h : s.Sound τ) {w : World} (hw : s.world.SameUse w) {a : Act} (hfree : ∀ c r, a ≠ .free c r)
    (hreport : ∀ c r e, a ≠ .report c r e) : (⟨w, s.callers⟩ : Scene).Sound (a :: τ) := by
  refine h.still hfree (fun c r e he => (hreport c r e he).elim) hw.runs ?_ hw.current hw.engines
    (fun _ _ _ _ => h.range) (fun _ _ => h.joining) fun _ _ => h.joined
  have hholding : (⟨w, s.callers⟩ : Scene).holding = s.holding := by
    funext i
    rcases i with c | r
    · rfl
    · simp [holding, hw.runs]
  rw [hholding, show World.inUse w = s.world.inUse from funext hw.inUse]
  exact h.custody

/-- The interpreter of a run that was not cleaned up is in use. -/
theorem Sound.inUse (h : s.Sound τ) (hr : s.world.runs[r]? = some run) (hp : run.phase.uncleaned = true) :
    s.world.inUse run.exec = true := by
  rw [h.custody.held]
  exact ⟨.inr r, by rw [holding_run hr, Run.exec?, if_pos hp]⟩

/-- A step of a worker that goes on using its interpreter leaves custody as it is. -/
theorem Sound.custody_run (h : s.Sound τ) {p : Phase} (hr : s.world.runs[r]? = some run)
    (hp : p.uncleaned = run.phase.uncleaned) :
    Custody (Function.update s.holding (.inr r) (Run.exec? { run with phase := p })) s.world.inUse := by
  rw [Function.update_eq_self_iff.mpr]
  · exact h.custody
  · rw [holding_run hr, Run.exec?, Run.exec?, hp]

theorem Sound.stop (h : s.Sound τ) (r : RunId) (cause : CancelCause) :
    (⟨s.world.cancel r cause, s.callers⟩ : Scene).Sound (.stop r cause :: τ) := by
  unfold World.cancel
  split
  next v x cs c hr =>
    exact h.phased (by simp) (by simp) hr (told_of_open hr (by simp)) rfl (fun _ => rfl) (Nat.le_refl _)
      (h.custody_run hr rfl) trivial
  next v x resume hr =>
    have hx : s.world.inUse x = true := h.inUse hr rfl
    have hcancel : s.world.SameUse (s.world.setExec x ((s.world.exec x).cancel cause)) := by
      refine ⟨rfl, fun _ => rfl, fun y => ?_, Nat.le_refl _⟩
      rw [World.inUse_set (s.world.lt_of_inUse hx)]
      exact congrFun (Function.update_eq_self_iff.mpr rfl) y
    exact h.others hcancel (by simp) (by simp)
  next => exact h.same (by simp) (by simp)

theorem Sound.work (h : s.Sound τ) (wait : Machine → Bool) (hr : s.world.runs[r]? = some run)
    (hwork : run.phase.atWork = true) : (⟨s.world.workPaced wait r, s.callers⟩ : Scene).Sound (.work r :: τ) := by
  obtain ⟨v, x, phase⟩ := run
  have huncleaned : phase.uncleaned = true := by cases phase <;> first | rfl | cases hwork
  have hx : s.world.inUse x = true := h.inUse hr huncleaned
  have hsettle : ∃ o : Outcome Ending, s.world.workPaced wait r = s.world.settle r x o ∧
      o.Occupies fun e => e.status ≠ .running := by
    cases phase with
    | ready cs cause =>
      exact ⟨_, by rw [World.workPaced, hr], worker_occupies (paced_busy wait fuel) _ cs cause hx⟩
    | paused resume => exact ⟨_, by rw [World.workPaced, hr], h.fair hr _ hx⟩
    | _ => cases hwork
  obtain ⟨o, ho, hoccupies⟩ := hsettle
  obtain ⟨m, p, hm, hrunning, hp, hfair⟩ := World.settle_eq (w := s.world) (r := r) (x := x) hoccupies
  rw [ho, hm]
  refine h.phased (by simp) (by simp) hr (told_of_open hr ?_) rfl (fun _ => rfl) (Nat.le_refl _) ?_ (hfair _)
  · rintro e rfl
    cases hwork
  · show Custody _ (s.world.absorb x m).inUse
    rw [World.inUse_absorb hx hrunning]
    exact h.custody_run hr (hp.trans huncleaned.symm)

theorem Sound.cleanUp (h : s.Sound τ) {v : EngineId} {x : ExecId} {e : Ending}
    (hr : s.world.runs[r]? = some ⟨v, x, .ended e⟩) :
    (⟨s.world.cleanUp r, s.callers⟩ : Scene).Sound (.cleanUp r :: τ) := by
  have hx : s.world.inUse x = true := h.inUse hr rfl
  obtain ⟨m, hclean, hrunning⟩ := World.cleanUp_eq hr
  rw [hclean]
  refine h.phased (by simp) (by simp) hr (told_of_open hr (by simp)) rfl (fun _ => rfl) (Nat.le_refl _) ?_ ?_
  · show Custody _ (s.world.setExec x m.exec).inUse
    rw [World.inUse_set (s.world.lt_of_inUse hx), hrunning]
    exact h.custody.give (by rw [holding_run hr]; rfl)
  · exact ⟨h.fair hr, List.mem_cons_self⟩

theorem Sound.close (h : s.Sound τ) {v : EngineId} {x : ExecId} {e : Ending}
    (hr : s.world.runs[r]? = some ⟨v, x, .cleaned e⟩) :
    (⟨s.world.close r, s.callers⟩ : Scene).Sound (.close r :: τ) := by
  rw [World.close_eq hr]
  refine h.phased (by simp) (by simp) hr (told_of_open hr (by simp)) rfl (fun _ => rfl) (Nat.le_refl _) ?_ ?_
  · rw [Function.update_eq_self_iff.mpr]
    · exact h.custody
    · rw [holding_run hr]
      rfl
  · exact (h.fair hr).mono (List.subset_cons_self _ τ)

/-- Every step keeps a scene sound. -/
theorem Sound.step (h : s.Sound τ) {a : Act} {s' : Scene} (hs : Step s a s') : s'.Sound (a :: τ) := by
  cases hs with
  | claimExec cause hc hv hx hw => exact h.claimExec cause hc hv hx hw
  | execBusy _ _ => exact h.same (by simp) (by simp)
  | claimEngine hc hw => exact h.claimEngine hc hw
  | engineBusy hc _ => exact h.engineBusy hc
  | giveBack hc => exact h.giveBack hc
  | seeClosed hc hr => exact h.seeClosed hc hr
  | seeOpen _ _ => exact h.same (by simp) (by simp)
  | free hc => exact h.free hc
  | report hc he => exact h.report hc he
  | stop r cause => exact h.stop r cause
  | work wait hr hw => exact h.work wait hr hw
  | cleanUp hr => exact h.cleanUp hr
  | close hr => exact h.close hr
  | others hw => exact h.others hw (by simp) (by simp)

end

end Scene

theorem Steps.sound {s₀ s : Scene} {τ : List Act} (h₀ : s₀.Idle) (h : Steps s₀ τ s) : s.Sound τ := by
  induction h with
  | none => exact .idle h₀
  | more _ hs ih => exact ih.step hs

/-! ## Runs take turns -/

def Act.ofRefusal : Act → Bool
  | .execBusy _ _ _ | .claimExec _ _ _ | .engineBusy _ _ _ | .giveBack _ _ _ => true
  | _ => false

/-- What holds after some steps from a scene. -/
structure Orderly (τ : List Act) (s : Scene) : Prop where
  /-- An interpreter is used by at most one worker that has not cleaned up. -/
  exclusive : ∀ {r r' : RunId} {run run' : Run}, s.world.runs[r]? = some run → s.world.runs[r']? = some run' →
    run.phase.uncleaned = true → run'.phase.uncleaned = true → run.exec = run'.exec → r = r'
  /-- An engine has at most one run that was started and not joined. -/
  single : ∀ {v r r'}, s.world.engineOf r = some v → s.world.engineOf r' = some v → ¬ Joined τ r → ¬ Joined τ r' → r = r'
  /-- No step of a start that is refused changes the run of any engine. -/
  unmoved : ∀ {a s'}, Step s a s' → a.ofRefusal = true → ∀ v, s'.world.current v = s.world.current v
  /-- A start that is refused for an interpreter in use changes nothing. -/
  busy : ∀ {c v x s'}, Step s (.execBusy c v x) s' → s.world.inUse x = true ∧ s' = s
  /-- A start that takes an interpreter found it idle. Until it gives it back or takes the engine the
      interpreter is in use, and no worker uses it. -/
  taken : ∀ {mid s₁ s₂ c v x}, Step s₁ (.claimExec c v x) s₂ → Steps s₂ mid s →
    (∀ a ∈ mid, a.caller? = some c → a = .engineBusy c v x) →
    s₁.world.inUse x = false ∧ s.world.inUse x = true ∧
      ∀ {r : RunId} {run : Run}, s.world.runs[r]? = some run → run.phase.uncleaned = true → run.exec ≠ x
  /-- A start that is refused for an engine in use leaves the interpreter idle, and all others alone. -/
  givenBack : ∀ {c v x s'}, Step s (.giveBack c v x) s' →
    s'.world.inUse x = false ∧ ∀ y ≠ x, s'.world.inUse y = s.world.inUse y
  /-- Joining a run that was joined before takes no engine from a newer run. -/
  rejoined : ∀ {c r s'}, Joined τ r → Step s (.free c r) s' → ∀ v, s'.world.current v = s.world.current v
  /-- The end of a run is told only after its worker has cleaned up. -/
  cleaned : ∀ {c r e s'}, Step s (.report c r e) s' → .cleanUp r ∈ τ
  /-- Whoever joins a run is told the same, and never that it is running. -/
  agreed : ∀ {c c' r e e'}, .report c r e ∈ τ → .report c' r e' ∈ τ → e = e' ∧ e.status ≠ .running

namespace Scene

def Has (s : Scene) (c : CallerId) (v : EngineId) (x : ExecId) : Prop :=
  (∃ cause, s.callers c = .claimed v x cause) ∨ s.callers c = .refused v x

theorem Has.holding {s : Scene} {c : CallerId} {v : EngineId} {x : ExecId} (h : s.Has c v x) :
    s.holding (.inl c) = some x := by
  rcases h with ⟨cause, h⟩ | h <;> rw [holding_caller, h] <;> rfl

/-- A caller keeps what it has taken until it takes a step of its own. -/
theorem Has.step {s s' : Scene} {c : CallerId} {v : EngineId} {x : ExecId} (h : s.Has c v x) {a : Act}
    (hs : Step s a s') (ha : a.caller? = some c → a = .engineBusy c v x) : s'.Has c v x := by
  -- The steps of other callers leave this one where it is.
  have hother : ∀ {d new w}, d ≠ c → s' = s.turn d new w → s'.Has c v x := by
    rintro d new w hd rfl
    unfold Has turn at *
    simpa only [Function.update_of_ne (Ne.symm hd)] using h
  have hown : ∀ {d}, a.caller? = some d → a ≠ .engineBusy d v x → d ≠ c := by
    rintro d hd hne rfl
    exact hne (ha hd)
  cases hs with
  | claimExec cause _ _ _ _ => exact hother (hown rfl (by simp)) rfl
  | claimEngine _ _ => exact hother (hown rfl (by simp)) rfl
  | giveBack _ => exact hother (hown rfl (by simp)) rfl
  | seeClosed _ _ => exact hother (hown rfl (by simp)) rfl
  | free _ => exact hother (hown rfl (by simp)) rfl
  | report _ _ => exact hother (hown rfl (by simp)) rfl
  | @engineBusy d u y _ _ hd _ =>
    by_cases hdc : d = c
    · subst hdc
      cases ha rfl
      exact .inr (by simp [turn])
    · exact hother hdc rfl
  | _ => exact h

theorem Has.steps {s s' : Scene} {c : CallerId} {v : EngineId} {x : ExecId} (h : s.Has c v x) {τ : List Act}
    (hs : Steps s τ s') (ha : ∀ a ∈ τ, a.caller? = some c → a = .engineBusy c v x) : s'.Has c v x := by
  induction hs with
  | none => exact h
  | more _ hs ih =>
    rw [List.forall_mem_cons] at ha
    exact (ih ha.2).step hs ha.1

end Scene

/-- Whatever the order of steps of any number of callers and workers: an interpreter is used by at most
    one worker that has not cleaned up, an engine has at most one run that was not joined, a start that
    is refused has no net effect on either, joining a run again takes no engine from a newer one, and
    how a run ended is told only after its worker has cleaned up, always alike, and never as running. -/
theorem runs_take_turns {s₀ s : Scene} {τ : List Act} (h₀ : s₀.Idle) (h : Steps s₀ τ s) : Orderly τ s := by
  have hsound := h.sound h₀
  constructor
  case exclusive =>
    intro r r' run run' hr hr' hp hp' hx
    have hheld : s.holding (.inr r) = some run.exec := by rw [Scene.holding_run hr, Run.exec?, if_pos hp]
    have hheld' : s.holding (.inr r') = some run.exec := by rw [Scene.holding_run hr', Run.exec?, if_pos hp', hx]
    exact Sum.inr_injective (hsound.custody.alone hheld hheld')
  case single =>
    intro v r r' hr hr' hj hj'
    have hnow := (hsound.current v r).mpr ⟨hr, hj⟩
    rw [(hsound.current v r').mpr ⟨hr', hj'⟩] at hnow
    exact (Option.some.inj hnow).symm
  case unmoved =>
    intro a s' hs ha v
    cases hs with
    | claimExec cause _ _ _ hw =>
      obtain ⟨-, rfl⟩ := World.claimExec_eq_ok.mp hw
      rfl
    | execBusy _ _ => rfl
    | engineBusy _ _ => rfl
    | giveBack _ => rfl
    | _ => cases ha
  case busy =>
    intro c v x s' hs
    cases hs with
    | execBusy _ he =>
      refine ⟨?_, rfl⟩
      by_contra hx
      rw [World.claimExec_eq_ok.mpr ⟨Bool.eq_false_of_not_eq_true hx, rfl⟩] at he
      cases he
  case taken =>
    intro mid s₁ s₂ c v x hs hmid ha
    cases hs with
    | claimExec cause _ _ _ hw =>
      have hhas : s.Has c v x := Scene.Has.steps (.inl ⟨cause, by simp [Scene.turn]⟩) hmid ha
      refine ⟨(World.claimExec_eq_ok.mp hw).1, (hsound.custody.held x).mpr ⟨_, hhas.holding⟩, fun {r run} hr hp hx => ?_⟩
      have hheld : s.holding (.inr r) = some x := by rw [Scene.holding_run hr, Run.exec?, if_pos hp, hx]
      cases hsound.custody.alone hhas.holding hheld
  case givenBack =>
    intro c v x s' hs
    cases hs with
    | giveBack hc =>
      have hx : s.world.inUse x = true := (hsound.custody.held x).mpr ⟨_, Scene.Has.holding (.inr hc)⟩
      have hback : (s.world.unclaimExec x).inUse = Function.update s.world.inUse x false :=
        World.inUse_set (s.world.lt_of_inUse hx) _
      refine ⟨?_, fun y hy => ?_⟩
      · show (s.world.unclaimExec x).inUse x = false
        rw [hback, Function.update_self]
      · show (s.world.unclaimExec x).inUse y = s.world.inUse y
        rw [hback, Function.update_of_ne hy]
  case rejoined =>
    intro c r s' hj hs v
    cases hs with
    | free hc =>
      obtain ⟨e, he⟩ := Option.isSome_iff_exists.mp (hsound.joining hc)
      obtain ⟨u, x, hr⟩ := World.told_eq_some.mp he
      show (s.world.join r).2.current v = s.world.current v
      rw [World.current_join hr, if_neg]
      rintro ⟨-, hcur⟩
      exact ((hsound.current u r).mp hcur).2 hj
  case cleaned =>
    intro c r e s' hs
    cases hs with
    | report _ he =>
      obtain ⟨u, x, hr⟩ := World.told_eq_some.mp he
      exact (hsound.fair hr).2
  case agreed =>
    intro c c' r e e' he he'
    have htold := hsound.reports he
    have hsame : e = e' := Option.some.inj (htold.symm.trans (hsound.reports he'))
    obtain ⟨u, x, hr⟩ := World.told_eq_some.mp htold
    exact ⟨hsame, (hsound.fair hr).1⟩

def pairWorld : World :=
  { program := twice
    execs := #[{ limits := .standard }, { limits := .standard }]
    engines := #[{ registry := 0, chains := [0, 0] }] }

def pairScene : Scene := ⟨pairWorld, fun _ => .idle⟩

theorem pairScene_idle : pairScene.Idle := by
  refine ⟨rfl, fun v => ?_, fun x => ?_, fun _ => rfl⟩
  · match v with
    | 0 => rfl
    | v + 1 => rfl
  · match x with
    | 0 => rfl
    | 1 => rfl
    | x + 2 => rfl

/-- How a run came to its end, until it is cleaned up. -/
def Phase.ending? : Phase → Option Ending
  | .ended e => some e
  | _ => none

theorem Phase.ending?_eq_some {f : Phase} {e : Ending} (h : f.ending? = some e) : f = .ended e := by
  cases f with
  | ended e' => exact congrArg Phase.ended (Option.some.inj h)
  | _ => cases h

/-- A run on the first interpreter, up to its join, while the second is refused for another. -/
def pairActs (e : Ending) : List Act :=
  [.report 2 0 e, .free 2 0, .seeClosed 2 0, .close 0, .cleanUp 0, .work 0, .giveBack 1 0 1, .engineBusy 1 0 1,
    .claimExec 1 0 1, .claimEngine 0 0 0 0, .claimExec 0 0 0]

theorem runs_take_turns_pair : ∃ e s, Steps pairScene (pairActs e) s ∧ e.status ≠ .running := by
  have hclaimed := Steps.none.more
    (.claimExec (s := pairScene) (c := 0) (v := 0) (x := 0) none rfl (by decide) (by decide) rfl)
  have hstarted := hclaimed.more (.claimEngine (c := 0) (x := 0) rfl rfl)
  have hsecond := hstarted.more (.claimExec (c := 1) (v := 0) (x := 1) none rfl (by decide) (by decide) rfl)
  have hrefused := (hsecond.more (.engineBusy (c := 1) rfl rfl)).more (.giveBack (c := 1) rfl)
  have hworked := hrefused.more (.work (r := 0) (fun _ => false) rfl rfl)
  generalize hs : (⟨World.workPaced _ 0 _, _⟩ : Scene) = s at hworked
  have hidle : s.callers 2 = .idle := by
    rw [← hs]
    rfl
  obtain ⟨v, x, e, hr⟩ : ∃ v x e, s.world.runs[0]? = some ⟨v, x, .ended e⟩ := by
    have hended : (s.world.runs[0]?.bind (·.phase.ending?)).isSome = true := by
      rw [← hs]
      decide +kernel
    obtain ⟨e, he⟩ := Option.isSome_iff_exists.mp hended
    obtain ⟨⟨v, x, f⟩, hr, hf⟩ := Option.bind_eq_some_iff.mp he
    cases Phase.ending?_eq_some hf
    exact ⟨v, x, e, hr⟩
  have hclosed := (hworked.more (.cleanUp hr)).more (.close (World.runs_cleanUp hr))
  have htold : ((s.world.cleanUp 0).close 0).told 0 = some e :=
    World.told_eq_some.mpr ⟨v, x, World.runs_close (World.runs_cleanUp hr)⟩
  have hseen := hclosed.more (.seeClosed (c := 2) (r := 0) hidle (by rw [← World.told, htold]; rfl))
  have hfreed := hseen.more (.free (c := 2) (r := 0) (by simp [Scene.turn]))
  have hall := hfreed.more (.report (c := 2) (r := 0) (e := e) (by simp [Scene.turn]) ((World.told_join 0 0).trans htold))
  exact ⟨e, _, hall, ((runs_take_turns pairScene_idle hall).agreed List.mem_cons_self List.mem_cons_self).2⟩

end BlockEngine
