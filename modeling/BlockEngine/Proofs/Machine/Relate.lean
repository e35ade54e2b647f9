/-
  BlockEngine.Proofs.Machine.Relate — two runs of the engine side by side.

  `Follows` compares how two computations come out when the host takes its turn at every pause:
  with the same result or the same fault, on the same machine up to what was printed and recorded
  before (`Past`) and to how much its stacks hold. A `Link` says what is let pass: either run may be
  allowed to starve, and faults may be excused on either side; where the stacks of the second run
  hold more, the first is excused once one of its own is full. The first run may be a family that takes fuel; `Tends` asks of its
  members what a filter asks.

  What the interpreter is built from relates piece by piece, up to `evaluateWith_alike`: blocks
  evaluate alike where nested blocks and calls do.
-/

import BlockEngine.Proofs.Machine.Invocation
import Mathlib.Order.Filter.AtTopBot.Basic

namespace BlockEngine

/-! ## The host's turn -/

/-- How work comes out when `host` takes its turn at every pause. -/
def Outcome.driven {α : Type} (host : Machine → Machine) : Outcome α → Outcome α
  | .done a m => .done a m
  | .fault f m => .fault f m
  | .paused m resume => (resume (host m)).driven host
  | .starved m => .starved m

def Outcome.Ended {α : Type} : Outcome α → Prop
  | .done .. => True
  | .fault .. => True
  | .paused .. => False
  | .starved .. => False

def Outcome.isDone {α : Type} : Outcome α → Bool
  | .done .. => true
  | _ => false

theorem Outcome.eq_done_of_isDone {α : Type} {o : Outcome α} (h : o.isDone = true) : ∃ a m, o = .done a m := by
  cases o with
  | done a m => exact ⟨a, m, rfl⟩
  | _ => cases h

def Outcome.isDoneWith {α : Type} (test : α → Machine → Bool) : Outcome α → Bool
  | .done a m => test a m
  | _ => false

theorem Outcome.eq_done_of_isDoneWith {α : Type} {test : α → Machine → Bool} {o : Outcome α}
    (h : o.isDoneWith test = true) : ∃ a m, o = .done a m ∧ test a m = true := by
  cases o with
  | done a m => exact ⟨a, m, rfl, h⟩
  | _ => cases h

theorem Outcome.driven_bind {α β : Type} (host : Machine → Machine) (o : Outcome α)
    (f : α → Machine → Outcome β) :
    (o.bind f).driven host = (o.driven host).bind fun a m => (f a m).driven host := by
  induction o with
  | paused m resume ih => exact ih (host m)
  | _ => rfl

theorem Outcome.Meets.driven {α : Type} {Q : α → Machine → Prop} {E : Exits} {host : Machine → Machine}
    (hh : ∀ m : Machine, m.MayResume (host m)) {o : Outcome α} (h : o.Meets Q E) : (o.driven host).Meets Q E := by
  induction o with
  | paused m resume ih => exact ih (host m) (h.2 _ (hh m))
  | _ => exact h

/-! ## What came before -/

/-- What the host and the journal hold from before. -/
structure Past where
  printed : List Text := []
  writes : Nat := 0
  journal : List NativeCall := []

def Machine.after (p : Past) (m : Machine) : Machine :=
  { m with
    host := { m.host with printed := m.host.printed ++ p.printed, writes := m.host.writes + p.writes }
    journal := m.journal ++ p.journal }

theorem Machine.after_nothing (m : Machine) : m.after {} = m := by
  simp [Machine.after]

theorem Machine.after_injective (p : Past) {m k : Machine} (h : m.after p = k.after p) : m = k := by
  obtain ⟨mp, mx, ms, ⟨pr, w, cap, ev, ke, co, ch⟩, mj⟩ := m
  obtain ⟨kp, kx, ks, ⟨pr', w', cap', ev', ke', co', ch'⟩, kj⟩ := k
  simp only [Machine.after, Machine.mk.injEq, Host.mk.injEq, List.append_cancel_right_eq,
    Nat.add_right_cancel_iff] at h
  simp only [Machine.mk.injEq, Host.mk.injEq]
  exact h

/-! ## Larger stacks -/

namespace Limits

def none : Limits := ⟨0, 0, 0, 0⟩

def plus (l more : Limits) : Limits :=
  ⟨l.operands + more.operands, l.control + more.control, l.bindings + more.bindings, l.calls + more.calls⟩

end Limits

def Machine.roomier (more : Limits) (m : Machine) : Machine := { m with exec.limits := m.exec.limits.plus more }

theorem Machine.roomier_none (m : Machine) : m.roomier .none = m := rfl

theorem Machine.roomier_injective (more : Limits) {m k : Machine} (h : m.roomier more = k.roomier more) : m = k := by
  obtain ⟨mp, ⟨⟨o, c, b, f⟩, mo, mc, mb, mf, me, mr, mx⟩, ms, mh, mj⟩ := m
  obtain ⟨kp, ⟨⟨o', c', b', f'⟩, ko, kc, kb, kf, ke, kr, kx⟩, ks, kh, kj⟩ := k
  simp only [Machine.roomier, Limits.plus, Machine.mk.injEq, Exec.mk.injEq, Limits.mk.injEq,
    Nat.add_right_cancel_iff] at h ⊢
  exact h

/-! ## Links -/

/-- How two runs are compared. -/
structure Link where
  /-- What the second run has behind it. -/
  past : Past
  /-- How much more each stack of the second run holds. -/
  more : Limits := .none
  /-- What the host does at a pause. -/
  host : Machine → Machine
  /-- Faults of the first run after which nothing is asked of the second. -/
  excuses : Fault → Prop
  /-- Faults of the second run after which nothing was asked of the first. -/
  grants : Fault → Prop
  firstStarves : Prop
  secondStarves : Prop
  resumes : ∀ m : Machine, m.MayResume (host m)
  host_after : ∀ m : Machine, host (m.after past) = (host m).after past
  host_roomier : ∀ m : Machine, host (m.roomier more) = (host m).roomier more := by exact fun _ => rfl
  /-- Where more was written before, the writer takes every line. -/
  roomy : past.writes = 0 ∨ ∀ m : Machine, m.host.capacity = none → (host m).host.capacity = none
  /-- A run is excused where one of its stacks was full, unless both runs have the same. -/
  overflows : more = .none ∨ ∀ e : StackError, excuses (.error (.stack e)) := by exact .inl rfl

namespace Link

def second (l : Link) (m : Machine) : Machine := (m.after l.past).roomier l.more

theorem second_injective (l : Link) {m k : Machine} (h : l.second m = l.second k) : m = k :=
  Machine.after_injective _ (Machine.roomier_injective _ h)

theorem second_eq {l : Link} (hp : l.past = {}) (hm : l.more = .none) (m : Machine) : l.second m = m := by
  rw [second, hp, hm, Machine.after_nothing, Machine.roomier_none]

theorem host_second (l : Link) (m : Machine) : l.host (l.second m) = l.second (l.host m) := by
  rw [second, second, l.host_roomier, l.host_after]

/-- The writer takes the same lines in both runs. -/
def Fits (l : Link) (m : Machine) : Prop := l.past.writes = 0 ∨ m.host.capacity = none

theorem fits_of_past {l : Link} (hp : l.past = {}) (m : Machine) : l.Fits m := .inl (congrArg Past.writes hp)

theorem fits_host (l : Link) {m : Machine} (h : l.Fits m) : l.Fits (l.host m) := by
  rcases l.roomy with hl | hl
  · exact .inl hl
  · exact h.imp id (hl m)

def here (host : Machine → Machine) (resumes : ∀ m : Machine, m.MayResume (host m)) (excuses grants : Fault → Prop)
    (firstStarves secondStarves : Prop) : Link where
  past := {}
  host := host
  excuses := excuses
  grants := grants
  firstStarves := firstStarves
  secondStarves := secondStarves
  resumes := resumes
  host_after m := by rw [Machine.after_nothing, Machine.after_nothing]
  roomy := .inl rfl

end Link

/-- The second outcome is that of the first, as far as the link asks. -/
inductive Outcome.Follows {α : Type} (l : Link) : Outcome α → Outcome α → Prop
  | done (a : α) {m : Machine} : l.Fits m → Follows l (.done a m) (.done a (l.second m))
  | fault (f : Fault) (m : Machine) : Follows l (.fault f m) (.fault f (l.second m))
  | starved (m : Machine) (o : Outcome α) : l.firstStarves → Follows l (.starved m) o
  | starves (o : Outcome α) (m : Machine) : l.secondStarves → Follows l o (.starved m)
  | excused {f : Fault} (m : Machine) (o : Outcome α) : l.excuses f → Follows l (.fault f m) o
  | granted {f : Fault} (o : Outcome α) (m : Machine) : l.grants f → Follows l o (.fault f m)

/-- Where nothing is let pass, two runs on one machine come out alike. -/
theorem Outcome.Follows.eq {α : Type} {l : Link} (hp : l.past = {}) (hm : l.more = .none) {o o' : Outcome α} (h : o.Follows l o')
    (hstarved : ∀ m, o = .starved m → ¬ l.firstStarves) (hstarves : ∀ m, o' = .starved m → ¬ l.secondStarves)
    (hexcused : ∀ f m, o = .fault f m → ¬ l.excuses f) (hgranted : ∀ f m, o' = .fault f m → ¬ l.grants f) : o' = o := by
  cases h with
  | done a _ => rw [l.second_eq hp hm]
  | fault f m => rw [l.second_eq hp hm]
  | starved m o hl => exact absurd hl (hstarved m rfl)
  | starves o m hl => exact absurd hl (hstarves m rfl)
  | excused m o hl => exact absurd hl (hexcused _ m rfl)
  | granted o m hl => exact absurd hl (hgranted _ m rfl)

namespace Work

variable {α β : Type} {l : Link}

def Follows (l : Link) (w w' : Work α) (m : Machine) : Prop :=
  Outcome.Follows l ((w m).driven l.host) ((w' (l.second m)).driven l.host)

/-- The second work follows the members of a family that count. -/
def Tends (l : Link) (F : Filter Nat) (w : Nat → Work α) (w' : Work α) (m : Machine) : Prop :=
  ∀ᶠ n in F, Follows l (w n) w' m

def Yields (l : Link) (w : Work α) (m : Machine) (a : α) (k : Machine) : Prop :=
  (w m).driven l.host = .done a k

theorem Meets.of_yields {Q : α → Machine → Prop} {E : Exits} {w : Work α} {m k : Machine} {a : α}
    (h : w.Meets Q E m) (hy : Yields l w m a k) : Q a k := by
  have := Outcome.Meets.driven l.resumes h
  rw [hy] at this
  exact this

theorem driven_bind (w : Work α) (f : α → Work β) (m : Machine) (host : Machine → Machine) :
    ((w >>= f) m).driven host = ((w m).driven host).bind fun a k => (f a k).driven host :=
  (congrArg (Outcome.driven host) (bind_apply w f m)).trans (Outcome.driven_bind host (w m) f)

theorem follows_bind {w w' : Work α} {f f' : α → Work β} {m : Machine} (hw : Follows l w w' m)
    (hf : ∀ a k, Yields l w m a k → Yields l w' (l.second m) a (l.second k) → l.Fits k →
      Follows l (f a) (f' a) k) :
    Follows l (w >>= f) (w' >>= f') m := by
  unfold Follows at hw ⊢
  rw [driven_bind, driven_bind]
  unfold Yields at hf
  generalize (w m).driven l.host = o at hw hf
  generalize (w' (l.second m)).driven l.host = o' at hw hf
  cases hw with
  | done a hk => exact hf a _ rfl rfl hk
  | fault f k => exact .fault f k
  | starved k o h => exact .starved k _ h
  | starves o k h => exact .starves _ k h
  | excused k o h => exact .excused k _ h
  | granted o k h => exact .granted _ k h

theorem tends_bind {F : Filter Nat} {w : Nat → Work α} {w' : Work α} {f : Nat → α → Work β}
    {f' : α → Work β} {m : Machine} (hw : Tends l F w w' m)
    (hf : ∀ a k n, Yields l (w n) m a k → l.Fits k → Tends l F (fun n => f n a) (f' a) k) :
    Tends l F (fun n => w n >>= f n) (w' >>= f') m := by
  -- Where the second run ends well, it says on which machine the members that count do.
  by_cases hy : ∃ a k n, Yields l (w n) m a k ∧ l.Fits k ∧ Yields l w' (l.second m) a (l.second k)
  · obtain ⟨a, k, n, hn, hk, hy⟩ := hy
    refine (hw.and (hf a k n hn hk)).mono fun n h => follows_bind h.1 fun b j _ hj _ => ?_
    obtain ⟨rfl, rfl⟩ : b = a ∧ j = k := by
      have he := hj.symm.trans hy
      simp only [Outcome.done.injEq] at he
      exact ⟨he.1, l.second_injective he.2⟩
    exact h.2
  · exact hw.mono fun n h => follows_bind h fun a k hk hk' hfit => absurd ⟨a, k, n, hk, hfit, hk'⟩ hy

/-! ## Work that does not look back -/

/-- The work does on a machine with a past what it does without. -/
def Blind (l : Link) (w : Work α) : Prop := ∀ m, l.Fits m → Follows l w w m

theorem blind_bind {w : Work α} {f : α → Work β} (hw : Blind l w) (hf : ∀ a, Blind l (f a)) :
    Blind l (w >>= f) :=
  fun m hm => follows_bind (hw m hm) fun a k _ _ hk => hf a k hk

theorem blind_pure (a : α) : Blind l (Pure.pure a) := fun _ hm => .done a hm

theorem blind_crash (f : Fault) : Blind l (crash f : Work α) := fun m _ => .fault f m

theorem blind_read {f : Machine → α} (hf : ∀ m : Machine, f (l.second m) = f m) : Blind l (read f) := by
  intro m hm
  unfold Follows read
  rw [hf]
  exact .done _ hm

theorem blind_modify {f : Machine → Machine} (hf : ∀ m : Machine, f (l.second m) = l.second (f m))
    (hc : ∀ m, (f m).host.capacity = m.host.capacity) : Blind l (modify f) := by
  intro m hm
  unfold Follows modify
  rw [hf]
  exact .done _ (hm.imp id (hc m).trans)

theorem blind_onStorage (f : Storage → α × Storage) : Blind l (onStorage f) :=
  fun m hm => .done (m := { m with storage := (f m.storage).2 }) _ hm

theorem blind_release (v : Value) : Blind l (release v) := blind_modify (fun _ => rfl) fun _ => rfl

theorem blind_truncateOperands (k : Nat) : Blind l (truncateOperands k) :=
  blind_modify (fun _ => rfl) fun _ => rfl

theorem blind_releasePrior (prior : Option Value) : Blind l (releasePrior prior) := by
  cases prior with
  | none => exact blind_pure ()
  | some v => exact blind_release v

theorem limits_second (l : Link) (m : Machine) : (l.second m).exec.limits = m.exec.limits.plus l.more := rfl

/-- Either both runs break down at a stack alike, or the first is excused. -/
theorem follows_stackFault (stack : StackName) (op : StackOp) (capacity : Limits → Nat) (m k : Machine) :
    Outcome.Follows (α := α) l (.fault (stackFault stack op (capacity m.exec.limits)) k)
      (.fault (stackFault stack op (capacity (l.second m).exec.limits)) (l.second k)) := by
  rcases l.overflows with h | h
  · rw [limits_second, h]
    exact .fault _ k
  · exact .excused _ _ (h _)

/-- Pushing on a stack. Where the first run has room for it, so has the second. -/
theorem blind_push (stack : StackName) (size : Machine → Nat) (capacity : Limits → Nat) {put : Machine → Machine}
    (hsize : ∀ m, size (l.second m) = size m) (hroom : ∀ a b, capacity a ≤ capacity (a.plus b))
    (hput : ∀ m, put (l.second m) = l.second (put m)) (hc : ∀ m, (put m).host.capacity = m.host.capacity) :
    Blind l fun m => if size m < capacity m.exec.limits then .done () (put m)
      else .fault (stackFault stack .push (capacity m.exec.limits)) m := by
  intro m hm
  unfold Follows
  dsimp only
  by_cases hfull : size m < capacity m.exec.limits
  · have hfull' : size (l.second m) < capacity (l.second m).exec.limits := by
      rw [hsize]
      exact Nat.lt_of_lt_of_le hfull (hroom _ _)
    rw [if_pos hfull, if_pos hfull', hput]
    exact .done () (hm.imp id (hc m).trans)
  · rw [if_neg hfull]
    rcases l.overflows with h | h
    · have hfull' : ¬ size (l.second m) < capacity (l.second m).exec.limits := by
        rw [hsize, limits_second, h]
        exact hfull
      rw [if_neg hfull']
      exact follows_stackFault stack .push capacity m m
    · exact .excused _ _ (h _)

theorem blind_pushOperand (v : Value) : Blind l (pushOperand v) :=
  blind_push .operand (·.exec.operands.length) (·.operands) (fun _ => rfl)
    (fun _ _ => Nat.le_add_right _ _) (fun _ => rfl) fun _ => rfl

theorem blind_pushControl (f : ControlFrame) : Blind l (pushControl f) :=
  blind_push .control (·.exec.control.length) (·.control) (fun _ => rfl)
    (fun _ _ => Nat.le_add_right _ _) (fun _ => rfl) fun _ => rfl

theorem blind_pushVariable (v : Variable) : Blind l (pushVariable v) :=
  blind_push .variable (·.exec.bindings.length) (·.bindings) (fun _ => rfl)
    (fun _ _ => Nat.le_add_right _ _) (fun _ => rfl) fun _ => rfl

theorem blind_pushCall (f : CallFrame) : Blind l (pushCall f) :=
  blind_push .call (·.exec.calls.length) (·.calls) (fun _ => rfl)
    (fun _ _ => Nat.le_add_right _ _) (fun _ => rfl) fun _ => rfl

theorem blind_popData : Blind l popData := by
  intro m hm
  unfold Follows popData
  have he : (l.second m).exec.control = m.exec.control := rfl
  rw [he]
  split
  · exact .done (m := { m with exec.control := _ }) _ hm
  · exact follows_stackFault .control .frame (·.control) m m

theorem blind_popBody : Blind l popBody := by
  intro m hm
  unfold Follows popBody
  have he : (l.second m).exec.control = m.exec.control := rfl
  rw [he]
  split
  · exact .done (m := { m with exec.control := _ }) _ hm
  · exact follows_stackFault .control .frame (·.control) m { m with exec.control := _ }
  · exact follows_stackFault .control .pop (·.control) m m

/-- A body is closed that is not open. -/
theorem blind_underflow : Blind l (read (·.exec.limits.control) >>= fun k => crash (stackFault .control .pop k) : Work α) :=
  fun m _ => follows_stackFault .control .pop (·.control) m m

theorem blind_pause : Blind l pause := by
  intro m hm
  unfold Follows pause
  simp only [Outcome.driven, l.host_second]
  exact .done () (l.fits_host hm)

/-- A writer that takes this line takes it whatever else was told before. -/
theorem blind_print (line : Text) : Blind l (print line) := by
  intro m hm
  have hfull : (l.second m).host.capacity.any (· ≤ (l.second m).host.writes) = m.host.capacity.any (· ≤ m.host.writes) := by
    rcases hm with h | h <;> simp [Link.second, Machine.roomier, Machine.after, h]
  unfold Follows print
  rw [hfull]
  split
  · exact .done _ hm
  · let k : Machine := { m with host.printed := line :: m.host.printed, host.writes := m.host.writes + 1 }
    have hk : l.second k = { l.second m with
        host.printed := line :: (l.second m).host.printed
        host.writes := (l.second m).host.writes + 1 } := by
      simp [Link.second, Machine.roomier, Machine.after, k, Nat.add_right_comm _ 1]
    simp only [Outcome.driven, ← hk]
    exact .done (m := k) none hm

theorem blind_jumpTo (i : Int) : Blind l (jumpTo i) := blind_modify (fun _ => rfl) fun _ => rfl

theorem blind_fail (e : Error) : Blind l (fail e) := blind_modify (fun _ => rfl) fun _ => rfl

theorem blind_skipBody : Blind l skipBody := by
  intro m hm
  unfold Follows skipBody
  have he : (l.second m).exec.eval = m.exec.eval := rfl
  rw [he]
  split
  · exact .fault _ m
  · split
    · exact .done (m := { m with exec.eval := _ }) () hm
    · exact .fault _ m

theorem blind_finish (v : Value) : Blind l (finish v) := by
  refine blind_modify (fun m => ?_) fun m => ?_
  · have he : (l.second m).exec.calls = m.exec.calls := rfl
    simp only [he]
    cases m.exec.calls <;> rfl
  · dsimp only
    cases m.exec.calls <;> rfl

theorem blind_assign (name : Text) (v : Value) : Blind l (assign name v) := by
  intro m hm
  unfold Follows assign
  have he : (l.second m).exec.bindings = m.exec.bindings := rfl
  rw [he]
  split
  · exact .done _ hm
  · exact .done (m := { m with exec.bindings := _, storage := _ }) _ hm

theorem blind_declare (name : Text) (v : Value) : Blind l (declare name v) :=
  fun m hm => blind_pushVariable ⟨name, v, m.exec.calls.length, m.exec.layer, 0⟩ m hm

theorem blind_fetch (name : Text) : Blind l (fetch name) := by
  refine blind_bind (blind_read fun _ => rfl) fun x => ?_
  split
  · exact blind_pure _
  · exact blind_bind (blind_onStorage _) fun _ => blind_pure _

theorem blind_argument (i : Int) : Blind l (argument i) := by
  refine blind_bind (blind_read fun _ => rfl) fun fs => ?_
  split
  · exact blind_pure _
  · split
    · exact blind_onStorage _
    · exact blind_pure _

theorem blind_cancelRun (cause : CancelCause) : Blind l (cancelRun cause) := by
  refine blind_modify (fun m => ?_) fun _ => rfl
  have hr : (l.second m).exec.running = m.exec.running := rfl
  dsimp only
  rw [hr]
  cases m.exec.running <;> rfl

theorem blind_mapFrame (depth : Nat) (f : CallFrame → CallFrame) : Blind l (mapExec (Exec.mapFrame depth f)) := by
  cases depth <;> exact blind_modify (fun _ => rfl) fun _ => rfl

theorem blind_tick (k : Nat) : Blind l (tick k) :=
  fun m hm => .done (m := { m with host := { m.host with counters := _ } }) _ hm

/-- All that a native asks for but calls. -/
theorem blind_answer (invoke : Invoker) {r : Request} (hr : ∀ c args, r ≠ .call c args) :
    Blind l (answer invoke r) := by
  cases r with
  | skipBody => exact blind_skipBody
  | jumpTo i => exact blind_jumpTo i
  | finish v => exact blind_finish v
  | fail e => exact blind_fail e
  | declare name v => exact blind_declare name v
  | assign name v => exact blind_assign name v
  | fetch name => exact blind_fetch name
  | pushData v => exact blind_pushControl _
  | popData => exact blind_popData
  | argument i => exact blind_argument i
  | call c args => exact absurd rfl (hr c args)
  | glimpse => exact blind_read fun _ => rfl
  | view v => exact blind_read fun _ => rfl
  | copy v => exact blind_onStorage (·.copy v)
  | newList own items => exact blind_onStorage (·.newList own items)
  | place v => exact blind_onStorage (·.place v)
  | free v => exact blind_modify (fun _ => rfl) fun _ => rfl
  | print line => exact blind_print line
  | report e => exact blind_modify (fun _ => rfl) fun _ => rfl
  | tick k => exact blind_tick k
  | keep name v => exact blind_modify (fun _ => rfl) fun _ => rfl
  | kept name => exact blind_read fun _ => rfl
  | chainNamed name => exact blind_read fun _ => rfl
  | pause => exact blind_pause
  | cancelRun cause => exact blind_cancelRun cause

theorem blind_openBody (depth i : Nat) (v : Value) : Blind l (openBody depth i v) := by
  refine blind_bind (blind_pushControl _) fun _ => ?_
  refine blind_bind (blind_read fun _ => rfl) fun layer => ?_
  exact blind_bind (blind_mapFrame _ _) fun _ => blind_pure _

theorem blind_endCall (depth base : Nat) : Blind l (endCall depth base) := by
  refine blind_bind (blind_modify (fun _ => rfl) fun _ => rfl) fun _ => ?_
  refine blind_bind (blind_modify (fun _ => rfl) fun _ => rfl) fun _ => ?_
  refine blind_bind ?_ fun v => blind_bind ?_ fun _ => blind_pure v
  · refine blind_bind (blind_read fun _ => rfl) fun f => ?_
    exact blind_bind (blind_mapFrame _ _) fun _ => blind_pure _
  · intro m hm
    unfold Follows popCall
    have he : (l.second m).exec.calls = m.exec.calls := rfl
    rw [he]
    split
    · exact .done (m := { m with exec.calls := _ }) () hm
    · exact follows_stackFault .call .pop (·.calls) m m

/-! ## Evaluation -/

/-- Machines on which works are compared, which work inside an invocation does not leave. -/
structure Ground (l : Link) (P : Machine → Prop) : Prop where
  fits : ∀ {m}, P m → l.Fits m
  stays : ∀ {γ : Type} {w : Work γ} {R : Machine → Machine → Prop} {m k : Machine} {a : γ},
    w.Stays R → P m → Yields l w m a k → l.Fits k → P k

/-- The machine is inside an invocation, and the past makes no difference to it. -/
structure Apt (l : Link) (m : Machine) : Prop where
  calls_ne : m.exec.calls ≠ []
  toScoped : m.Scoped
  fits : l.Fits m

theorem ground_apt : Ground l (Apt l) where
  fits h := h.fits
  stays hs hm hy hk := by
    have hc := (hs _ hm.calls_ne hm.toScoped).of_yields hy
    exact ⟨hc.1.calls_ne hm.calls_ne, hc.1.toScoped hm.calls_ne hm.toScoped, hk⟩

theorem ground_fits : Ground l l.Fits := ⟨id, fun _ _ _ hk => hk⟩

/-- The second work follows the first on these machines. -/
def Alike (l : Link) (F : Filter Nat) (P : Machine → Prop) (w : Nat → Work α) (w' : Work α) : Prop :=
  ∀ m, P m → Tends l F w w' m

def AlikeEval (l : Link) (F : Filter Nat) (P : Machine → Prop) (eval : Nat → Evaluator) (eval' : Evaluator) : Prop :=
  ∀ b index mark bare prior,
    Alike l F P (fun n => eval n b index mark bare prior) (eval' b index mark bare prior)

def AlikeInvoke (l : Link) (F : Filter Nat) (P : Machine → Prop) (invoke : Nat → Invoker) (invoke' : Invoker) : Prop :=
  ∀ c args, Alike l F P (fun n => invoke n c args) (invoke' c args)

section

variable {F : Filter Nat} {P : Machine → Prop} (g : Ground l P) {eval : Nat → Evaluator} {eval' : Evaluator}
  {invoke : Nat → Invoker} {invoke' : Invoker}

theorem blind_pushAll (vs : List Value) : Blind l (pushAll vs) := by
  induction vs with
  | nil => exact blind_pure ()
  | cons v vs ih => exact blind_bind (blind_pushOperand v) fun _ => ih

theorem blind_pushHidden (d : Definition) (index : Int) (mark : Marker) (prior : Option Value) :
    Blind l (pushHidden d index mark prior) := by
  rw [pushHidden_eq]
  split
  · exact blind_bind (blind_releasePrior prior) fun _ => blind_pure _
  · exact blind_bind (blind_pushAll _) fun _ => blind_pure _

theorem alike_bind_blind {w : Nat → Work α} {w' : Work α} {f : α → Work β} (hw : Alike l F P w w')
    (hf : ∀ a, Blind l (f a)) : Alike l F P (fun n => w n >>= f) (w' >>= f) :=
  fun m hm => tends_bind (hw m hm) fun a k _ _ hk => .of_forall fun _ => hf a k hk

include g

theorem alike_of_blind {w : Work α} (h : Blind l w) : Alike l F P (fun _ => w) w :=
  fun m hm => .of_forall fun _ => h m (g.fits hm)

theorem alike_bind {w : Nat → Work α} {w' : Work α} {f : Nat → α → Work β} {f' : α → Work β}
    {R : Machine → Machine → Prop} (hw : Alike l F P w w') (hs : ∀ n, (w n).Stays R)
    (hf : ∀ a, Alike l F P (fun n => f n a) (f' a)) : Alike l F P (fun n => w n >>= f n) (w' >>= f') :=
  fun m hm => tends_bind (hw m hm) fun a k n hy hk => hf a k (g.stays (hs n) hm hy hk)

theorem alike_blind_bind {w : Work α} {f : Nat → α → Work β} {f' : α → Work β}
    {R : Machine → Machine → Prop} (hw : Blind l w) (hs : w.Stays R)
    (hf : ∀ a, Alike l F P (fun n => f n a) (f' a)) : Alike l F P (fun n => w >>= f n) (w >>= f') :=
  alike_bind g (alike_of_blind g hw) (fun _ => hs) hf

theorem alike_pushSlot (he : AlikeEval l F P eval eval') (hs : ∀ n, Settling (eval n)) (d : Definition) (index : Int)
    (s : Slot) : Alike l F P (fun n => pushSlot (eval n) d index s) (pushSlot eval' d index s) := by
  have hpush : ∀ v, Blind l (pushOperand v >>= fun _ => (pure (.ok ()) : Work (Except Error Unit))) := fun v =>
    blind_bind (blind_pushOperand v) fun _ => blind_pure _
  unfold pushSlot
  cases s.type with
  | text | const => exact alike_of_blind g (hpush _)
  | definition | unknown => exact alike_of_blind g (blind_pure _)
  | block =>
    cases s.block with
    | none => exact alike_of_blind g (blind_crash _)
    | some c =>
      refine alike_bind g (he c _ _ _ _) (fun n => hs n c _ _ _ _) fun r => ?_
      cases r with
      | error e => exact alike_of_blind g (blind_pure _)
      | ok va => exact alike_of_blind g (hpush _)

theorem alike_pushSlots (he : AlikeEval l F P eval eval') (hs : ∀ n, Settling (eval n)) (d : Definition) (b : BlockId)
    (index : Int) (is : List Nat) :
    Alike l F P (fun n => pushSlots (eval n) d b index is) (pushSlots eval' d b index is) := by
  induction is with
  | nil => exact alike_of_blind g (blind_pure _)
  | cons i is ih =>
    refine alike_blind_bind g (blind_read fun _ => rfl) (settled_read _) fun s => ?_
    cases s with
    | none => exact ih
    | some s =>
      refine alike_bind g (alike_pushSlot g he hs d index s) (fun n => pushSlot_growing (hs n) d index s) fun r => ?_
      cases r with
      | error e => exact alike_of_blind g (blind_pure _)
      | ok _ => exact ih

theorem alike_pushOperands (he : AlikeEval l F P eval eval') (hs : ∀ n, Settling (eval n)) (d : Definition)
    (b : BlockId) (index : Int) (mark : Marker) (bare : Bool) (prior : Option Value) :
    Alike l F P (fun n => pushOperands (eval n) d b index mark bare prior)
      (pushOperands eval' d b index mark bare prior) := by
  refine alike_blind_bind g (blind_pushHidden d index mark prior) (pushHidden_growing d index mark prior) fun r => ?_
  cases r with
  | error e => exact alike_of_blind g (blind_pure _)
  | ok _ =>
    unfold pushDeclared
    dsimp only
    by_cases hb : (bare || mark == .closing) = true
    · simp only [if_pos hb]
      exact alike_of_blind g (blind_pure _)
    · simp only [if_neg hb]
      exact alike_blind_bind g (blind_read fun _ => rfl) (settled_read _) fun k => alike_pushSlots g he hs d b index _

theorem alike_call (hi : AlikeInvoke l F P invoke invoke') (hr : ∀ n, Restoring (invoke n))
    (c : Option ChainId) (args : List Value) :
    Alike l F P (fun n => call (invoke n) c args) (call invoke' c args) := by
  cases c with
  | none => exact alike_of_blind g (blind_bind (blind_fail _) fun _ => blind_pure _)
  | some c =>
    refine alike_blind_bind g (R := fun _ _ => True) (blind_onStorage _)
      (fun m hc hs => ⟨.of_eq rfl rfl (.refl _) rfl, trivial⟩) fun bound => ?_
    refine alike_bind g (R := fun _ _ => True) (hi c bound)
      (fun n m hc hs => (hr n c bound m hs).weaken fun _ _ h => ⟨h.carries, trivial⟩) fun r => ?_
    refine alike_of_blind g (blind_bind (blind_modify (fun _ => rfl) fun _ => rfl) fun _ => ?_)
    cases r with
    | ok v => exact blind_pure v
    | error e => exact blind_bind (blind_fail e) fun _ => blind_pure _

theorem alike_answer (hi : AlikeInvoke l F P invoke invoke') (hr : ∀ n, Restoring (invoke n)) (r : Request) :
    Alike l F P (fun n => answer (invoke n) r) (answer invoke' r) := by
  by_cases h : ∃ c args, r = .call c args
  · obtain ⟨c, args, rfl⟩ := h
    exact alike_call g hi hr c args
  · have hr : ∀ c args, r ≠ .call c args := fun c args e => h ⟨c, args, e⟩
    have he : ∀ i : Invoker, answer i r = answer invoke' r := fun i => by
      cases r with
      | call c args => exact absurd rfl (hr c args)
      | _ => rfl
    simp only [he]
    exact alike_of_blind g (blind_answer invoke' hr)

theorem alike_perform {γ : Type} (hi : AlikeInvoke l F P invoke invoke') (hr : ∀ n, Restoring (invoke n))
    (p : Proc γ) : Alike l F P (fun n => perform (invoke n) p) (perform invoke' p) := by
  induction p with
  | done a => exact alike_of_blind g (blind_pure a)
  | crash f => exact alike_of_blind g (blind_crash f)
  | ask r go ih => exact alike_bind g (alike_answer g hi hr r) (fun n => answer_tame (hr n) r) ih

theorem alike_callNative (hi : AlikeInvoke l F P invoke invoke') (hr : ∀ n, Restoring (invoke n))
    (native : Native) (e : EvalState) (mark : Marker) (base : Nat) :
    Alike l F P (fun n => callNative (invoke n) native e mark base) (callNative invoke' native e mark base) := by
  refine alike_blind_bind g (blind_read fun _ => rfl) (settled_read _) fun args => ?_
  refine alike_blind_bind g (blind_read fun _ => rfl) (settled_read _) fun outer => ?_
  refine alike_blind_bind g (R := fun _ _ => True) (blind_modify (fun _ => rfl) fun _ => rfl)
    (fun m hc hs => ⟨.of_eq rfl rfl (.refl _) rfl, trivial⟩) fun _ => ?_
  refine alike_bind_blind (alike_perform g hi hr (native args)) fun v => ?_
  refine blind_bind (blind_read fun _ => rfl) fun inner => ?_
  refine blind_bind (blind_modify (fun _ => rfl) fun _ => rfl) fun _ => ?_
  exact blind_bind (blind_truncateOperands base) fun _ => blind_pure _

/-- Blocks evaluate alike where nested blocks and calls do. -/
theorem evaluateWith_alike (he : AlikeEval l F P eval eval') (hs : ∀ n, Settling (eval n))
    (hi : AlikeInvoke l F P invoke invoke') (hr : ∀ n, Restoring (invoke n)) :
    AlikeEval l F P (fun n => evaluateWith (eval n) (invoke n)) (evaluateWith eval' invoke') := by
  intro b index mark bare prior
  refine alike_blind_bind g (blind_read fun _ => rfl) (settled_read _) fun d => ?_
  cases d.native with
  | none => exact alike_of_blind g (blind_bind (blind_releasePrior prior) fun _ => blind_pure _)
  | some native =>
    refine alike_blind_bind g (blind_read fun _ => rfl) (settled_read _) fun base => ?_
    refine alike_bind g (alike_pushOperands g he hs d b index mark bare prior)
      (fun n => pushOperands_growing (hs n) d b index mark bare prior) fun r => ?_
    cases r with
    | error e => exact alike_of_blind g (blind_bind (blind_truncateOperands base) fun _ => blind_pure _)
    | ok _ =>
      refine alike_bind_blind (alike_callNative g hi hr native _ mark base) fun r => ?_
      obtain ⟨v, e⟩ := r
      dsimp only
      cases e.error with
      | none => exact blind_pure _
      | some x => exact blind_bind (blind_release v) fun _ => blind_pure _

end

end Work

end BlockEngine
