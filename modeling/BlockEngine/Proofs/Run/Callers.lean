/-
  BlockEngine.Proofs.Run.Callers — callers and workers, and the steps that they take.

  Callers start runs, stop, await and join them; each run has a worker. A start takes the interpreter,
  then the engine, and gives the interpreter back if the engine is taken. Who joins a run sees that it
  is closed, frees its engine unless another run has it, and then tells how it ended. A worker may
  wait before every block, cleans up its interpreter and then closes its run. An interpreter may
  serve several engines, and a run may be joined again and again.

  `Step` has a constructor for each of these steps. Between them anything may happen to programs,
  engines and interpreters that leaves runs and what they occupy alone.
-/

import BlockEngine.Proofs.Machine.Occupied
import BlockEngine.Proofs.Run.Isolation

namespace BlockEngine

open Work

/-! ## Views of a world -/

namespace World

def inUse (w : World) (x : ExecId) : Bool := (w.exec x).running

def current (w : World) (v : EngineId) : Option RunId := (w.engine v).current

def workPaced (wait : Machine → Bool) (r : RunId) (w : World) : World :=
  match w.runs[r]? with
  | some ⟨v, x, .ready cs cause⟩ =>
    w.settle r x (Work.worker (Work.invokePaced wait Work.fuel) (w.engine v).registry cs cause (w.machine x))
  | some ⟨_, x, .paused resume⟩ => w.settle r x (resume (w.machine x))
  | _ => w

theorem workPaced_never (r : RunId) (w : World) : w.workPaced (fun _ => false) r = w.work r := by
  unfold workPaced work
  exact invokePaced_never Work.fuel ▸ rfl

section

variable (w : World)

theorem inUse_setExec (x y : ExecId) (e : Exec) :
    (w.setExec x e).inUse y = if x = y ∧ x < w.execs.size then e.running else w.inUse y := by
  unfold inUse exec setExec
  dsimp only
  rw [Array.getElem?_setIfInBounds]
  by_cases hxy : x = y
  · subst hxy
    by_cases hx : x < w.execs.size
    · simp [hx]
    · simp [hx]
  · simp [hxy]

theorem lt_of_inUse {x : ExecId} (h : w.inUse x = true) : x < w.execs.size := by
  by_cases hx : x < w.execs.size
  · exact hx
  · simp [inUse, exec, hx] at h

theorem current_mapEngine (v u : EngineId) (f : Engine → Engine) :
    (w.mapEngine v f).current u = if v = u ∧ v < w.engines.size then (f (w.engine v)).current else w.current u := by
  unfold current engine mapEngine
  dsimp only
  rw [Array.getElem?_modify]
  by_cases hvu : v = u
  · subst hvu
    by_cases hv : v < w.engines.size
    · simp [hv]
    · simp [hv]
  · simp [hvu]

theorem runs_setPhase_of_ne {r i : RunId} (h : r ≠ i) (phase : Phase) :
    (w.setPhase r phase).runs[i]? = w.runs[i]? := by
  simp [setPhase, Array.getElem?_modify, h]

end

end World

/-! ## Callers and workers -/

abbrev CallerId := Nat

/-- How far a caller has come. -/
inductive Caller where
  | idle
  /-- Has taken the interpreter for a start, and takes the engine next. -/
  | claimed (v : EngineId) (x : ExecId) (cause : Option CancelCause)
  /-- Has found the engine taken, and gives the interpreter back next. -/
  | refused (v : EngineId) (x : ExecId)
  /-- Has seen that the run is closed, and frees its engine next. -/
  | joining (r : RunId)
  /-- Has freed the engine, and tells how the run ended next. -/
  | joined (r : RunId)

inductive Act where
  | claimExec (c : CallerId) (v : EngineId) (x : ExecId)
  /-- A start is refused, for the interpreter is in use. -/
  | execBusy (c : CallerId) (v : EngineId) (x : ExecId)
  | claimEngine (c : CallerId) (v : EngineId) (x : ExecId) (r : RunId)
  | engineBusy (c : CallerId) (v : EngineId) (x : ExecId)
  /-- A start is refused, for the engine was taken. -/
  | giveBack (c : CallerId) (v : EngineId) (x : ExecId)
  | seeClosed (c : CallerId) (r : RunId)
  /-- An attempt to join tells that the run goes on. -/
  | seeOpen (c : CallerId) (r : RunId)
  | free (c : CallerId) (r : RunId)
  /-- A join tells how the run ended. -/
  | report (c : CallerId) (r : RunId) (e : Ending)
  | stop (r : RunId) (cause : CancelCause)
  | work (r : RunId)
  | cleanUp (r : RunId)
  | close (r : RunId)
  | others

def Act.caller? : Act → Option CallerId
  | .claimExec c _ _ | .execBusy c _ _ | .claimEngine c _ _ _ | .engineBusy c _ _ | .giveBack c _ _ => some c
  | .seeClosed c _ | .seeOpen c _ | .free c _ | .report c _ _ => some c
  | .stop _ _ | .work _ | .cleanUp _ | .close _ | .others => none

/-- What is left alone between the steps of callers and workers. -/
structure World.SameUse (w w' : World) : Prop where
  runs : w'.runs = w.runs
  current : ∀ v, w'.current v = w.current v
  inUse : ∀ x, w'.inUse x = w.inUse x
  engines : w.engines.size ≤ w'.engines.size

structure Scene where
  world : World
  callers : CallerId → Caller

def Scene.turn (s : Scene) (c : CallerId) (caller : Caller) (w : World) : Scene :=
  ⟨w, Function.update s.callers c caller⟩

def Phase.atWork : Phase → Bool
  | .ready _ _ | .paused _ => true
  | _ => false

inductive Step : Scene → Act → Scene → Prop
  /-- A start takes an idle interpreter. -/
  | claimExec {s : Scene} {c : CallerId} {v : EngineId} {x : ExecId} (cause : Option CancelCause) {w : World} :
      s.callers c = .idle → v < s.world.engines.size → x < s.world.execs.size → s.world.claimExec x = .ok w →
      Step s (.claimExec c v x) (s.turn c (.claimed v x cause) w)
  | execBusy {s : Scene} {c : CallerId} {v : EngineId} {x : ExecId} {e : Error} :
      s.callers c = .idle → s.world.claimExec x = .error e → Step s (.execBusy c v x) s
  /-- A start takes an engine without a run, and has started one. -/
  | claimEngine {s : Scene} {c : CallerId} {v : EngineId} {x : ExecId} {cause : Option CancelCause} {r : RunId} {w : World} :
      s.callers c = .claimed v x cause → s.world.claimEngine v x cause = .ok (r, w) →
      Step s (.claimEngine c v x r) (s.turn c .idle w)
  | engineBusy {s : Scene} {c : CallerId} {v : EngineId} {x : ExecId} {cause : Option CancelCause} {e : Error} :
      s.callers c = .claimed v x cause → s.world.claimEngine v x cause = .error e →
      Step s (.engineBusy c v x) (s.turn c (.refused v x) s.world)
  | giveBack {s : Scene} {c : CallerId} {v : EngineId} {x : ExecId} : s.callers c = .refused v x →
      Step s (.giveBack c v x) (s.turn c .idle (s.world.unclaimExec x))
  /-- A join sees that the run is closed. Joining an open run waits; an attempt to join does not. -/
  | seeClosed {s : Scene} {c : CallerId} {r : RunId} : s.callers c = .idle → (s.world.join r).1.isSome = true →
      Step s (.seeClosed c r) (s.turn c (.joining r) s.world)
  | seeOpen {s : Scene} {c : CallerId} {r : RunId} : s.callers c = .idle → (s.world.join r).1 = none →
      Step s (.seeOpen c r) s
  /-- A join frees the engine, unless another run has it. -/
  | free {s : Scene} {c : CallerId} {r : RunId} : s.callers c = .joining r →
      Step s (.free c r) (s.turn c (.joined r) (s.world.join r).2)
  | report {s : Scene} {c : CallerId} {r : RunId} {e : Ending} : s.callers c = .joined r → (s.world.join r).1 = some e →
      Step s (.report c r e) (s.turn c .idle s.world)
  | stop {s : Scene} (r : RunId) (cause : CancelCause) : Step s (.stop r cause) ⟨s.world.cancel r cause, s.callers⟩
  /-- The worker works until it waits, pauses or ends. -/
  | work {s : Scene} {r : RunId} {run : Run} (wait : Machine → Bool) :
      s.world.runs[r]? = some run → run.phase.atWork = true →
      Step s (.work r) ⟨s.world.workPaced wait r, s.callers⟩
  | cleanUp {s : Scene} {r : RunId} {v : EngineId} {x : ExecId} {e : Ending} :
      s.world.runs[r]? = some ⟨v, x, .ended e⟩ → Step s (.cleanUp r) ⟨s.world.cleanUp r, s.callers⟩
  | close {s : Scene} {r : RunId} {v : EngineId} {x : ExecId} {e : Ending} :
      s.world.runs[r]? = some ⟨v, x, .cleaned e⟩ → Step s (.close r) ⟨s.world.close r, s.callers⟩
  /-- Anything else: programs are edited, engines and interpreters are made. -/
  | others {s : Scene} {w : World} : s.world.SameUse w → Step s .others ⟨w, s.callers⟩

inductive Steps (s₀ : Scene) : List Act → Scene → Prop
  | none : Steps s₀ [] s₀
  | more {τ : List Act} {s s' : Scene} {a : Act} : Steps s₀ τ s → Step s a s' → Steps s₀ (a :: τ) s'

structure Scene.Idle (s : Scene) : Prop where
  runs : s.world.runs = #[]
  current : ∀ v, s.world.current v = none
  inUse : ∀ x, s.world.inUse x = false
  callers : ∀ c, s.callers c = .idle

def Joined (τ : List Act) (r : RunId) : Prop := ∃ c, Act.free c r ∈ τ

end BlockEngine
