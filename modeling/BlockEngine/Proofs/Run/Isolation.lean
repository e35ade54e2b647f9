/-
  BlockEngine.Proofs.Run.Isolation — entry chains do not interfere.

  The lone run of an entry chain is its invocation on an interpreter that was not used before, with
  the same capacities and the same linked program. What it prints goes to the host's writer, which
  may refuse a line once it has taken its number: lone runs are made one after the other, each on
  the writer as the one before left it (`RunAlone`). Where the writer takes every line it makes no
  difference when they are made (`runAlone_of_unbounded`).

  A chain of standard blocks that ends leaves its interpreter as it found it, and storage and the
  host too but for its output; so the next chain runs as it would alone, after what was printed and
  recorded before.

  Proved: `chains_run_as_alone`. Started on an idle interpreter, whatever it was used for, a program
  of standard blocks ends as its entry chains end alone: with their results in order and their
  outputs one after the other, up to the first that does not return normally, whose ending is that
  of the run.
-/

import BlockEngine.Proofs.Library.Walk
import BlockEngine.Proofs.Machine.Past
import BlockEngine.Run.Lifecycle

namespace BlockEngine

open Work

/-! ## Pasts -/

def Past.on (p q : Past) : Past := ⟨p.printed ++ q.printed, p.writes + q.writes, p.journal ++ q.journal⟩

def Machine.told (m : Machine) : Past := { printed := m.host.printed, journal := m.journal }

theorem Machine.told_after (m : Machine) {p : Past} (hp : p.writes = 0) : (m.after p).told = m.told.on p := by
  simp [Machine.after, Machine.told, Past.on, hp]

theorem Machine.after_after (m : Machine) (p q : Past) : (m.after p).after q = m.after (p.on q) := by
  simp [Machine.after, Past.on, Nat.add_assoc]

/-- Two runs that differ in what came before, the first of which may starve. -/
def Past.link (p : Past) : Link where
  past := p
  host := id
  excuses _ := False
  grants _ := False
  firstStarves := True
  secondStarves := False
  resumes := Machine.MayResume.refl
  host_after _ := rfl
  roomy := .inr fun _ h => h

theorem Outcome.Follows.of_done {α : Type} {p : Past} {a : α} {k : Machine} {o : Outcome α}
    (h : Outcome.Follows p.link (.done a k) o) : o = .done a (k.after p) := by
  cases h with
  | done => rfl
  | starves _ _ h => exact h.elim
  | granted _ _ h => exact h.elim

theorem Outcome.Follows.of_fault {α : Type} {p : Past} {f : Fault} {k : Machine} {o : Outcome α}
    (h : Outcome.Follows p.link (.fault f k) o) : o = .fault f (k.after p) := by
  cases h with
  | fault => rfl
  | starves _ _ h => exact h.elim
  | excused _ _ h => exact h.elim
  | granted _ _ h => exact h.elim

/-- Work that is never paused does not wait for the host. -/
theorem Outcome.Meets.driven_eq {α : Type} {Q : α → Machine → Prop} {E : Exits} (hE : ∀ m, ¬ E.paused m)
    {host : Machine → Machine} {o : Outcome α} (h : o.Meets Q E) : o.driven host = o := by
  cases o with
  | paused m resume => exact (hE m h.1).elim
  | _ => rfl

/-! ## Lone chains -/

/-- A machine whose writer has taken so many lines. -/
def Machine.written (m : Machine) (k : Nat) : Machine := { m with host.writes := k }

/-- An interpreter that was not used, with nothing printed or recorded. -/
structure Machine.Blank (m : Machine) : Prop where
  exec : m.exec = { limits := m.exec.limits, running := m.exec.running, cancelled := m.exec.cancelled }
  told : m.told = {}

namespace Machine.Blank

variable {m : Machine} (h : m.Blank)
include h

theorem toScoped : m.Scoped := by
  unfold Machine.Scoped
  rw [h.exec]
  rfl

theorem plain : m.Plain := by
  refine ⟨?_, ?_, ?_, ?_, ?_⟩ <;> rw [h.exec] <;> exact fun _ h => (by cases h)

theorem written (k : Nat) : (m.written k).Blank := ⟨h.exec, h.told⟩

/-- A chain that ends leaves nothing behind but its output. -/
theorem ended {k : Machine} (hr : m.Restores k) (hc : k.exec.control = m.exec.control) (hq : m.Quiet k) :
    k = (m.written k.host.writes).after k.told := by
  have hbindings : k.exec.bindings = m.exec.bindings := by
    have hm : m.exec.bindings = [] := by rw [h.exec]
    have ht := hr.tags
    rw [Exec.tags, Exec.tags, hm, List.map_nil, List.map_eq_nil_iff] at ht
    rw [ht, hm]
  have hexec : k.exec = m.exec := by
    calc k.exec = ⟨k.exec.limits, k.exec.operands, k.exec.control, k.exec.bindings, k.exec.calls, k.exec.eval,
          k.exec.running, k.exec.cancelled⟩ := rfl
      _ = m.exec := by rw [hr.limits, hr.operands, hc, hbindings, hr.calls, hr.eval, hq.running, hq.cancelled]
  have htold := h.told
  simp only [Machine.told, Past.mk.injEq] at htold
  obtain ⟨hprinted, -, hjournal⟩ := htold
  calc k = ⟨k.program, k.exec, k.storage, k.host, k.journal⟩ := rfl
    _ = (m.written k.host.writes).after k.told := by
      rw [hr.program, hexec, hq.storage, hq.host]
      simp [Machine.after, Machine.told, Machine.written, hprinted, hjournal]

end Machine.Blank

theorem after_plain {m : Machine} (h : m.Plain) (p : Past) : (m.after p).Plain :=
  ⟨h.operands, h.control, h.bindings, h.args, h.results⟩

section

variable {L : Machine} (hL : L.Blank) (R : Region L.program) {c : ChainId} (hc : R.chains c) (n : Nat)
include hL hc

theorem invoke_meets (P : Past) :
    (invoke n c []).Meets (fun _ k => (L.after P).Restores k ∧ k.exec.control = L.exec.control ∧ (L.after P).Quiet k)
      ⟨fun _ _ => True, fun _ => True, fun _ => False⟩ (L.after P) := by
  have hs : (L.after P).Scoped := hL.toScoped
  have hkeep : (invoke n c []).Meets _ _ (L.after P) :=
    invoke_keeps_control (m := L.after P) R True True (.inl trivial) n hc hs (fun _ => after_plain hL.plain P)
      fun _ hv => (by cases hv)
  exact (Outcome.Meets.both hkeep (invoke_restores_frames n c [] hs)).mono
    (fun r k hk => ⟨hk.2, hk.1.1, (hk.1.2.1 trivial).2⟩) (fun _ _ _ => trivial) (fun _ _ => trivial) fun _ hf => hf.1

/-- A chain runs after some past as it runs alone, if the writer took no more lines or takes every line. -/
theorem invoke_follows {P : Past} (hP : P.link.Fits L) :
    Outcome.Follows P.link (invoke n c [] L) (invoke n c [] (L.after P)) := by
  have h : Outcome.Follows P.link ((invoke n c [] L).driven id) ((invoke n c [] (L.after P)).driven id) :=
    invoke_mirrors (l := P.link) trivial (Nat.le_refl n) c [] L hP
  have halone := invoke_meets hL R hc n {}
  rw [Machine.after_nothing] at halone
  rwa [Outcome.Meets.driven_eq (fun _ => id) halone,
    Outcome.Meets.driven_eq (fun _ => id) (invoke_meets hL R hc n P)] at h

theorem lone_ends {r : Except Error Value} {k : Machine} (h : invoke n c [] L = .done r k) :
    k = (L.written k.host.writes).after k.told := by
  have halone := invoke_meets hL R hc n {}
  rw [Machine.after_nothing] at halone
  unfold Meets at halone
  rw [h] at halone
  exact hL.ended halone.1 halone.2.1 halone.2.2

end

/-! ## Runs of several chains -/

def Ending.normal (v : Value) : Ending := ⟨.ok, none, [v]⟩

def lone (n : Nat) (L : Machine) (c : ChainId) : Outcome Ending := runMains (invoke n) [c] [] L

section

variable {L : Machine} (hL : L.Blank) (R : Region L.program) {c : ChainId} (hc : R.chains c)
  (hm : L.program.isMain c = true) {n : Nat}
include hL hc hm

omit hL hc in
/-- What a chain that ends comes to by itself. -/
theorem lone_eq {e : Ending} {k : Machine} (h : lone n L c = .done e k) :
    (∃ r, invoke n c [] L = .done r k ∧ afterMain (invoke n) [] [] (.ok r) k = .done e k) ∨
      ∃ f, invoke n c [] L = .fault f k ∧ e = ⟨.fatal, some f.toError, []⟩ := by
  rw [lone, runMains_cons hm] at h
  cases ho : invoke n c [] L with
  | done r l =>
    rw [ho] at h
    have hkl : l = k := by
      rcases r with e | v <;> (cases h; rfl)
    subst hkl
    exact .inl ⟨r, rfl, h⟩
  | fault f l =>
    rw [ho] at h
    cases h
    exact .inr ⟨f, rfl, rfl⟩
  | starved l =>
    rw [ho] at h
    cases h
  | paused l resume =>
    rw [ho] at h
    cases h

/-- A chain that returns normally when alone hands on to the next. -/
theorem runMains_returned {v : Value} {k : Machine} (h : lone n L c = .done (.normal v) k) {P : Past}
    (hP : P.link.Fits L) (cs : List ChainId) (results : List Value) :
    runMains (invoke n) (c :: cs) results (L.after P) = runMains (invoke n) cs (results ++ [v]) (k.after P) := by
  have hfollow := invoke_follows hL R hc n hP
  rcases lone_eq hm h with ⟨r, hr, he⟩ | ⟨f, -, he⟩
  · rw [hr] at hfollow
    rw [runMains_cons (m := L.after P) hm, hfollow.of_done]
    rcases r with x | w
    · injection he with he
      injection he with _ he
      cases he
    · cases he
      rfl
  · cases he

/-- A chain that does not return normally when alone ends the run. -/
theorem runMains_failed {e : Ending} {k : Machine} (h : lone n L c = .done e k) (he : e.status ≠ .ok) {P : Past}
    (hP : P.link.Fits L) (cs : List ChainId) (results : List Value) :
    runMains (invoke n) (c :: cs) results (L.after P) = .done ⟨e.status, e.error, results⟩ (k.after P) := by
  have hfollow := invoke_follows hL R hc n hP
  rw [runMains_cons (m := L.after P) hm]
  rcases lone_eq hm h with ⟨r, hr, hend⟩ | ⟨f, hr, rfl⟩
  · rw [hr] at hfollow
    rw [hfollow.of_done]
    rcases r with x | v
    · cases hend
      rfl
    · cases hend
      exact (he rfl).elim
  · rw [hr] at hfollow
    rw [hfollow.of_fault]
    rfl

omit hL hc in
/-- A chain that ends by itself returns normally, with one result, or it does not and has none. -/
theorem lone_normal_or {e : Ending} {k : Machine} (h : lone n L c = .done e k) :
    (∃ v, e = .normal v) ∨ e.status ≠ .ok ∧ e.results = [] := by
  rcases lone_eq hm h with ⟨x | v, -, he⟩ | ⟨f, -, rfl⟩
  · cases he
    refine .inr ⟨?_, rfl⟩
    dsimp only
    split <;> decide
  · cases he
    exact .inl ⟨v, rfl⟩
  · exact .inr ⟨fun h => (by cases h), rfl⟩

/-- A writer that takes every line takes those of a lone run whenever it is made. -/
theorem lone_later (hcap : L.host.capacity = none) {e : Ending} {k : Machine} (h : lone n L c = .done e k) (j : Nat) :
    lone n (L.written (L.host.writes + j)) c = .done e (k.written (k.host.writes + j)) := by
  have hlater : ∀ l : Machine, l.written (l.host.writes + j) = l.after { writes := j } := fun l => by
    simp [Machine.written, Machine.after]
  rw [hlater, hlater]
  rcases lone_normal_or hm h with ⟨v, rfl⟩ | ⟨he, hresults⟩
  · exact runMains_returned hL R hc hm h (.inr hcap) [] []
  · obtain ⟨status, error, results⟩ := e
    cases hresults
    exact runMains_failed hL R hc hm h he (.inr hcap) [] []

end

/-- The past of a run after chains that ended by themselves on some machines. -/
def Past.since (P : Past) (ends : List Machine) : Past := ends.foldl (fun P k => k.told.on P) P

/-- Chains run by themselves one after the other, each on the writer as the one before left it; the first when
    it has taken so many lines. They are listed with their endings and the machines that they ended on. -/
inductive Machine.RunAlone (L : Machine) (n : Nat) : Nat → List ChainId → List (Ending × Machine) → Prop
  | nil (j : Nat) : L.RunAlone n j [] []
  | cons {j : Nat} {c : ChainId} {e : Ending} {k : Machine} {cs : List ChainId} {alone : List (Ending × Machine)} :
      lone n (L.written j) c = .done e k → L.RunAlone n k.host.writes cs alone →
        L.RunAlone n j (c :: cs) ((e, k) :: alone)

/-- A run ends on a machine as some chains ended alone: all normally, or else as the first that did not. The
    results come after some others, and what was told after some past. -/
def EndsAs (alone : List (Ending × Machine)) (results : List Value) (P : Past) (e : Ending) (m : Machine) : Prop :=
  (∃ vs, alone.map Prod.fst = vs.map .normal ∧ e = ⟨.ok, none, results ++ vs⟩ ∧ m.told = P.since (alone.map Prod.snd)) ∨
    ∃ pre l post vs, alone = pre ++ l :: post ∧ pre.map Prod.fst = vs.map .normal ∧ l.1.status ≠ .ok ∧
      e = ⟨l.1.status, l.1.error, results ++ vs⟩ ∧ m.told = P.since ((pre ++ [l]).map Prod.snd)

theorem EndsAs.cons {alone : List (Ending × Machine)} {results : List Value} {v : Value} {P : Past} {k m : Machine}
    {e : Ending} (h : EndsAs alone (results ++ [v]) (k.told.on P) e m) :
    EndsAs ((.normal v, k) :: alone) results P e m := by
  rcases h with ⟨vs, hvs, he, hm⟩ | ⟨pre, l, post, vs, rfl, hvs, hl, he, hm⟩
  · exact .inl ⟨v :: vs, by simp [hvs], by simpa using he, hm⟩
  · exact .inr ⟨(.normal v, k) :: pre, l, post, v :: vs, rfl, by simp [hvs], hl, by simpa using he, hm⟩

section

variable {L : Machine} (hL : L.Blank) (R : Region L.program) {n : Nat}
include hL R

/-- Chains run one after the other end as they end alone. -/
theorem runMains_endsAs (cs : List ChainId) (hR : ∀ c ∈ cs.filter L.program.isMain, R.chains c) {j : Nat}
    {alone : List (Ending × Machine)} (h : L.RunAlone n j (cs.filter L.program.isMain) alone) {P : Past}
    (hP : P.writes = 0) (results : List Value) :
    ∃ e m, runMains (invoke n) cs results ((L.written j).after P) = .done e m ∧ EndsAs alone results P e m := by
  induction cs generalizing j alone P results with
  | nil =>
    cases h
    refine ⟨_, _, rfl, .inl ⟨[], rfl, by rw [List.append_nil], ?_⟩⟩
    rw [Machine.told_after _ hP, (hL.written j).told]
    simp [Past.on, Past.since]
  | cons c cs ih =>
    by_cases hm : L.program.isMain c = true
    · rw [List.filter_cons_of_pos hm] at h hR
      rw [List.forall_mem_cons] at hR
      cases h with
      | @cons _ _ e k _ alone hlone hrest =>
        rcases lone_normal_or (L := L.written j) hm hlone with ⟨v, rfl⟩ | ⟨he, -⟩
        · -- The chain leaves a machine with what it told, on which the others run as alone.
          obtain ⟨r, hr⟩ : ∃ r, invoke n c [] (L.written j) = .done r k := by
            rcases lone_eq (L := L.written j) hm hlone with ⟨r, hr, -⟩ | ⟨f, -, he⟩
            · exact ⟨r, hr⟩
            · cases he
          have hk := lone_ends (hL.written j) R hR.1 n hr
          have hafter : k.after P = (L.written k.host.writes).after (k.told.on P) := by
            conv_lhs => rw [hk]
            exact Machine.after_after _ _ _
          obtain ⟨e, m, hrun, hends⟩ := ih hR.2 hrest (P := k.told.on P) (by simp [Past.on, hP, Machine.told]) (results ++ [v])
          refine ⟨e, m, ?_, hends.cons⟩
          rw [runMains_returned (hL.written j) R hR.1 hm hlone (.inl hP), hafter, hrun]
        · refine ⟨_, _, runMains_failed (hL.written j) R hR.1 hm hlone he (.inl hP) cs results, .inr ?_⟩
          exact ⟨[], (e, k), alone, [], rfl, rfl, he, by rw [List.append_nil], Machine.told_after k hP⟩
    · rw [List.filter_cons_of_neg hm] at h hR
      have hm : ((L.written j).after P).program.isMain c = false := Bool.eq_false_iff.mpr hm
      rw [runMains_pass hm]
      exact ih hR h hP results

/-- On a writer that takes every line, chains may as well run alone each on the writer as it is at first. -/
theorem runAlone_of_unbounded (hcap : L.host.capacity = none) (hfirst : L.host.writes = 0) {cs : List ChainId}
    (hR : ∀ c ∈ cs, R.chains c) (hmain : ∀ c ∈ cs, L.program.isMain c = true) {ends : List (Ending × Machine)}
    (h : List.Forall₂ (fun c l => lone n L c = .done l.1 l.2) cs ends) (j : Nat) :
    ∃ alone, L.RunAlone n j cs alone ∧ List.Forall₂ (fun l l' => l'.1 = l.1 ∧ l'.2.told = l.2.told) ends alone := by
  induction h generalizing j with
  | nil => exact ⟨[], .nil j, .nil⟩
  | @cons c l cs ends hlone _ ih =>
    rw [List.forall_mem_cons] at hR hmain
    have hlater := lone_later hL R hR.1 hmain.1 hcap hlone j
    rw [hfirst, Nat.zero_add] at hlater
    obtain ⟨alone, halone, hends⟩ := ih hR.2 hmain.2 (l.2.host.writes + j)
    exact ⟨(l.1, l.2.written (l.2.host.writes + j)) :: alone, .cons hlater halone, .cons ⟨rfl, rfl⟩ hends⟩

end

/-! ## Starting and joining -/

namespace World

theorem runs_setPhase {w : World} {r : RunId} {run : Run} (h : w.runs[r]? = some run) (phase : Phase) :
    (w.setPhase r phase).runs[r]? = some { run with phase := phase } := by
  simp [setPhase, Array.getElem?_modify, h]

/-- The world once a worker has ended on a machine, its interpreter was cleaned up and its run joined. -/
def ran (w : World) (r : RunId) (v : EngineId) (x : ExecId) (e : Ending) (m : Machine) : World :=
  let worked := w.absorb x m
  { worked with
    storage := m.storage.releaseAll (worked.exec x).held
    execs := worked.execs.setIfInBounds x { limits := (worked.exec x).limits }
    engines := w.engines.modify v fun y => if y.current = some r then { y with current := none } else y
    runs := w.runs.modify r fun y => { y with phase := .closed e } }

theorem runs_setPhase_setPhase (w : World) (r : RunId) (a b : Phase) :
    ((w.setPhase r a).setPhase r b).runs = (w.setPhase r b).runs := by
  refine Array.ext_getElem? fun i => ?_
  simp only [setPhase, Array.getElem?_modify]
  by_cases h : r = i
  · simp only [if_pos h, Option.map_map]
    rfl
  · simp only [if_neg h]

theorem join_proceed_eq {w : World} {r : RunId} {v : EngineId} {x : ExecId} {cs : List ChainId}
    {cause : Option CancelCause} (hr : w.runs[r]? = some ⟨v, x, .ready cs cause⟩) {e : Ending} {m : Machine}
    (h : worker (invoke fuel) (w.engine v).registry cs cause (w.machine x) = .done e m) :
    (w.proceed r).join r = (some e, w.ran r v x e m) := by
  let worked := (w.absorb x m).setPhase r (.ended e)
  have hwork : w.work r = worked := by
    rw [work, hr]
    dsimp only
    rw [h]
    rfl
  have hended : worked.runs[r]? = some ⟨v, x, .ended e⟩ := runs_setPhase (w := w.absorb x m) hr _
  let cleaned := { worked with
    storage := m.storage.releaseAll (worked.exec x).held
    execs := worked.execs.setIfInBounds x { limits := (worked.exec x).limits } }.setPhase r (.cleaned e)
  have hclean : worked.cleanUp r = cleaned := by
    rw [cleanUp, hended]
    rfl
  have hcleaned : cleaned.runs[r]? = some ⟨v, x, .cleaned e⟩ := runs_setPhase hended _
  have hclosed : (cleaned.setPhase r (.closed e)).runs[r]? = some ⟨v, x, .closed e⟩ := runs_setPhase hcleaned _
  rw [proceed, hwork, hclean, close, hcleaned]
  dsimp only
  rw [join, hclosed]
  have hruns : (cleaned.setPhase r (.closed e)).runs = (w.ran r v x e m).runs := by
    rw [runs_setPhase_setPhase]
    exact runs_setPhase_setPhase (w.absorb x m) r _ _
  refine congrArg (Prod.mk (some e)) ?_
  exact congrArg (fun runs => { w.ran r v x e m with runs := runs }) hruns

/-- A run whose worker ends is closed, and joining it tells how it ended. -/
theorem join_proceed {w : World} {r : RunId} {v : EngineId} {x : ExecId} {cs : List ChainId}
    {cause : Option CancelCause} (hr : w.runs[r]? = some ⟨v, x, .ready cs cause⟩) {e : Ending} {m : Machine}
    (h : worker (invoke fuel) (w.engine v).registry cs cause (w.machine x) = .done e m) :
    ∃ w', (w.proceed r).join r = (some e, w') ∧ w'.host = m.host ∧ w'.journal = m.journal :=
  ⟨_, join_proceed_eq hr h, rfl, rfl⟩

/-! ## Idle interpreters -/

/-- The machine of an interpreter that was not used, with the capacities of another, for the linked
    program of an engine. -/
def fresh (w : World) (v : EngineId) (x : ExecId) : Machine :=
  { program := w.program.link (w.engine v).registry (w.engine v).chains
    exec := { limits := (w.exec x).limits, running := true }
    storage := w.storage.releaseAll (w.exec x).held
    host := { w.host with printed := [], writes := 0 } }

def mains (w : World) (v : EngineId) : List ChainId :=
  (w.engine v).chains.filter (w.program.link (w.engine v).registry (w.engine v).chains).isMain

theorem fresh_blank (w : World) (v : EngineId) (x : ExecId) : (w.fresh v x).Blank := ⟨rfl, rfl⟩

theorem exec_setExec {w : World} {x : ExecId} (hx : x < w.execs.size) (e : Exec) : (w.setExec x e).exec x = e := by
  simp [exec, setExec, hx]

theorem registry_mapEngine (w : World) (v : EngineId) {f : Engine → Engine} (hf : ∀ e, (f e).registry = e.registry) :
    ((w.mapEngine v f).engine v).registry = (w.engine v).registry := by
  unfold engine mapEngine
  rw [Array.getElem?_modify]
  cases w.engines[v]? with
  | none => simp
  | some e => simp [hf]

def taken (w : World) (v : EngineId) (x : ExecId) (cause : Option CancelCause) : World :=
  { (w.setExec x { w.exec x with running := true }).mapEngine v fun e => { e with current := some w.runs.size } with
    runs := w.runs.push { engine := v, exec := x, phase := .ready (w.engine v).chains cause } }

section

variable (w : World) (v : EngineId) (x : ExecId) (cause : Option CancelCause)

/-- An idle interpreter and an engine without a run can be started. -/
theorem start_free (hidle : (w.exec x).running = false) (hfree : (w.engine v).current = none) :
    w.start v x cause = (.ok w.runs.size, w.taken v x cause) := by
  let claimed := w.setExec x { w.exec x with running := true }
  have hexec : w.claimExec x = .ok claimed := by
    rw [claimExec, if_neg (by rw [hidle]; decide)]
  have hengine : claimed.claimEngine v x cause = .ok (w.runs.size, w.taken v x cause) := by
    have hcurrent : (claimed.engine v).current = none := hfree
    rw [claimEngine, if_neg (by rw [hcurrent]; decide)]
    rfl
  rw [start, hexec]
  dsimp only
  rw [hengine]

theorem taken_ready :
    (w.taken v x cause).runs[w.runs.size]? = some ⟨v, x, .ready (w.engine v).chains cause⟩ := by
  simp [taken]

theorem taken_registry : ((w.taken v x cause).engine v).registry = (w.engine v).registry :=
  registry_mapEngine (w.setExec x { w.exec x with running := true }) v fun _ => rfl

theorem taken_machine (hx : x < w.execs.size) :
    (w.taken v x cause).machine x = { w.machine x with exec.running := true } := by
  have hused : (w.taken v x cause).exec x = { w.exec x with running := true } := exec_setExec hx _
  rw [machine, hused]
  rfl

end

/-- The worker of a run that is started on an idle interpreter starts as on a fresh one. -/
theorem start_idle {w : World} {v : EngineId} {x : ExecId} (hx : x < w.execs.size)
    (hidle : (w.exec x).running = false) (hfree : (w.engine v).current = none) :
    ∃ r w₁, w.start v x none = (.ok r, w₁) ∧ w₁.runs[r]? = some ⟨v, x, .ready (w.engine v).chains none⟩ ∧
      ∀ n, worker (invoke n) (w₁.engine v).registry (w.engine v).chains none (w₁.machine x) =
        runMains (invoke n) (w.engine v).chains []
          (((w.fresh v x).written w.host.writes).after { printed := w.host.printed, journal := w.journal }) := by
  refine ⟨_, _, w.start_free v x none hidle hfree, w.taken_ready v x none, fun n => ?_⟩
  have hafter : ((w.fresh v x).written w.host.writes).after { printed := w.host.printed, journal := w.journal } =
      { program := w.program.link (w.engine v).registry (w.engine v).chains
        exec := { limits := (w.exec x).limits, running := true }
        storage := w.storage.releaseAll (w.exec x).held
        host := w.host
        journal := w.journal } := by
    simp [Machine.after, Machine.written, fresh]
  rw [hafter, w.taken_registry v x none, w.taken_machine v x none hx]
  rfl

end World

/-! ## Entry chains one after the other -/

def Past.output (p : Past) : Text := p.printed.reverse.flatMap (· ++ "\n")

theorem Past.output_since (P : Past) (ends : List Machine) :
    (P.since ends).output = P.output ++ ends.flatMap (·.host.output) := by
  induction ends generalizing P with
  | nil => simp [Past.since]
  | cons k ends ih =>
    rw [show P.since (k :: ends) = (k.told.on P).since ends from rfl, ih]
    simp [Past.output, Past.on, Machine.told, Host.output]

theorem Past.journal_since (P : Past) (ends : List Machine) :
    (P.since ends).journal = ends.reverse.flatMap (·.journal) ++ P.journal := by
  induction ends generalizing P with
  | nil => rfl
  | cons k ends ih =>
    rw [show P.since (k :: ends) = (k.told.on P).since ends from rfl, ih]
    simp [Past.on, Machine.told]

/-- The output and the journal of a machine that told of these machines after a world. -/
theorem World.told_since {w : World} {m : Machine} {alone : List (Ending × Machine)}
    (h : m.told = Past.since { printed := w.host.printed, journal := w.journal } (alone.map Prod.snd)) :
    m.host.output = w.host.output ++ alone.flatMap (·.2.host.output) ∧
      m.journal = alone.reverse.flatMap (·.2.journal) ++ w.journal := by
  constructor
  · calc m.host.output = m.told.output := rfl
      _ = _ := by
        rw [h, Past.output_since, List.flatMap_map]
        rfl
  · calc m.journal = m.told.journal := rfl
      _ = _ := by rw [h, Past.journal_since, ← List.map_reverse, List.flatMap_map]

/-- Started on an idle interpreter, whatever it was used for, a program of standard blocks ends as its
    entry chains end alone, one after the other on a writer that took as many lines. Either all return
    normally, and so does the run, with their results in order and their outputs one after the other; or
    the first that does not ends the run as it ends itself, after the results and the outputs of those
    before it and its own output, and no later chain runs. -/
theorem chains_run_as_alone {w : World} {v : EngineId} {x : ExecId} (hx : x < w.execs.size)
    (hidle : (w.exec x).running = false) (hfree : (w.engine v).current = none)
    (R : Region (w.fresh v x).program) (hR : ∀ c ∈ w.mains v, R.chains c) {alone : List (Ending × Machine)}
    (hends : (w.fresh v x).RunAlone fuel w.host.writes (w.mains v) alone) :
    ∃ r w₁ e w₂ results, w.start v x none = (.ok r, w₁) ∧ (w₁.proceed r).join r = (some e, w₂) ∧
      ((alone.map Prod.fst = results.map .normal ∧ e = ⟨.ok, none, results⟩ ∧
          w₂.host.output = w.host.output ++ alone.flatMap (·.2.host.output) ∧
          w₂.journal = alone.reverse.flatMap (·.2.journal) ++ w.journal) ∨
        ∃ pre l post, alone = pre ++ l :: post ∧ pre.map Prod.fst = results.map .normal ∧ l.1.status ≠ .ok ∧
          e = ⟨l.1.status, l.1.error, results⟩ ∧
          w₂.host.output = w.host.output ++ (pre ++ [l]).flatMap (·.2.host.output) ∧
          w₂.journal = (pre ++ [l]).reverse.flatMap (·.2.journal) ++ w.journal) := by
  obtain ⟨r, w₁, hstart, hready, hworker⟩ := World.start_idle hx hidle hfree
  let P : Past := { printed := w.host.printed, journal := w.journal }
  obtain ⟨e, m, hrun, hends⟩ := runMains_endsAs (w.fresh_blank v x) R (w.engine v).chains hR hends (P := P) rfl []
  obtain ⟨w₂, hjoin, hhost, hjournal⟩ := World.join_proceed hready ((hworker fuel).trans hrun)
  rcases hends with ⟨vs, hvs, he, htold⟩ | ⟨pre, l, post, vs, halone, hvs, hl, he, htold⟩
  · obtain ⟨houtput, hcalls⟩ := World.told_since htold
    exact ⟨r, w₁, e, w₂, vs, hstart, hjoin, .inl ⟨hvs, he, hhost ▸ houtput, hjournal.trans hcalls⟩⟩
  · obtain ⟨houtput, hcalls⟩ := World.told_since htold
    refine ⟨r, w₁, e, w₂, vs, hstart, hjoin, .inr ⟨pre, l, post, halone, hvs, hl, he, ?_, ?_⟩⟩
    · exact hhost ▸ houtput
    · exact hjournal.trans hcalls

/-- An engine that runs the same entry chain twice, on a writer that takes three of its four lines. -/
def twiceWorld : World :=
  { program := twice
    host := { capacity := some 3 }
    execs := #[{ limits := .standard }]
    engines := #[{ registry := 0, chains := [0, 0] }] }

/-- Alone, the chain returns normally on a writer that took nothing, and fails on one that took its lines. -/
theorem twice_alone : ∃ e k e' k', lone fuel ((twiceWorld.fresh 0 0).written 0) 0 = .done e k ∧ e.status = .ok ∧
    lone fuel ((twiceWorld.fresh 0 0).written k.host.writes) 0 = .done e' k' ∧ e'.status = .failed := by
  have hfirst : (lone fuel ((twiceWorld.fresh 0 0).written 0) 0).isDoneWith
      (fun e k => e.status == .ok && k.host.writes == 2) = true := by decide +kernel
  have hsecond : (lone fuel ((twiceWorld.fresh 0 0).written 2) 0).isDoneWith
      (fun e _ => e.status == .failed) = true := by decide +kernel
  obtain ⟨e, k, hlone, hfirst⟩ := Outcome.eq_done_of_isDoneWith hfirst
  obtain ⟨e', k', hlater, hfailed⟩ := Outcome.eq_done_of_isDoneWith hsecond
  obtain ⟨hok, hwrites⟩ := Bool.and_eq_true_iff.mp hfirst
  refine ⟨e, k, e', k', hlone, eq_of_beq hok, ?_, eq_of_beq hfailed⟩
  rw [eq_of_beq hwrites, hlater]

theorem chains_run_as_alone_twice :
    ∃ alone r w₁ e w₂, (twiceWorld.fresh 0 0).RunAlone fuel 0 [0, 0] alone ∧
      twiceWorld.start 0 0 none = (.ok r, w₁) ∧ (w₁.proceed r).join r = (some e, w₂) ∧ e.status = .failed := by
  obtain ⟨e, k, e', k', hfirst, hok, hsecond, hfailed⟩ := twice_alone
  have hmains : ∀ c ∈ twiceWorld.mains 0, c = 0 := by decide
  have halone : (twiceWorld.fresh 0 0).RunAlone fuel 0 [0, 0] [(e, k), (e', k')] :=
    .cons hfirst (.cons hsecond (.nil _))
  obtain ⟨r, w₁, e₁, w₂, results, hstart, hjoin, hends⟩ := chains_run_as_alone (w := twiceWorld) (v := 0) (x := 0)
    (by decide) rfl rfl twiceRegion hmains halone
  refine ⟨_, r, w₁, e₁, w₂, halone, hstart, hjoin, ?_⟩
  rcases hends with ⟨hall, -⟩ | ⟨pre, l, post, hsplit, -, hl, rfl, -⟩
  · obtain ⟨v, -, hv⟩ := List.mem_map.mp (hall ▸ List.mem_cons_of_mem e List.mem_cons_self : e' ∈ results.map .normal)
    rw [← hv] at hfailed
    cases hfailed
  · have hmem : l ∈ [(e, k), (e', k')] := by simp [hsplit]
    rcases List.mem_pair.mp hmem with rfl | rfl
    · exact absurd hok hl
    · exact hfailed

end BlockEngine
