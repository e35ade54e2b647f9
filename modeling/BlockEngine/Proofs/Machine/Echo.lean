/-
  BlockEngine.Proofs.Machine.Echo — a run beside the one that breaks down where it is stopped first.

  The engine hands errors up as results, through everything that was under way. Whether they arrive as
  they were is seen by comparing two runs, one as it is and one that breaks down at its first stop
  (`Watch.halts`). `Outcome.Echoes` says that the two go the same way until the second breaks down, and
  that from there the first does nothing any more but hand up that stop's error: it does not wait and
  no native is called. Since the fault of the second run may be anything that depends on the stop, it
  tells which stop it was.

  A run that waits, and is resumed once it is cancelled, is stopped there at once.
-/

import BlockEngine.Proofs.Library.Modest
import BlockEngine.Proofs.Machine.Watched

namespace BlockEngine

/-- The block is the one at a position of a chain, or it is one in an argument. -/
def Program.Stands (p : Program) (b : BlockId) : Option ChainId → Int → Prop
  | some c, index => ∃ i : Nat, index = i ∧ (p.chain c)[i]? = some b
  | none, index => index = -1

/-- A block of the kind fails by itself: it has no code, or calls a procedure that no chain defines, or
    its native fails. -/
inductive Definition.FailsWith (d : Definition) : Error → Prop
  | noNative : d.native = none → FailsWith d .noNative
  | unlinked : d.role = .call → d.owner = none → FailsWith d .unlinked
  | failed {f : Native} {args : List Value} {e : Error} :
      d.native = some f → (f args).MayFail e → e.IsBare → FailsWith d e

theorem Definition.FailsWith.bare {d : Definition} {e : Error} (h : d.FailsWith e) : e.IsBare := by
  cases h with
  | noNative _ => exact ⟨rfl, rfl⟩
  | unlinked _ _ => exact ⟨rfl, rfl⟩
  | failed _ _ h => exact h

namespace Stop

def error (p : Program) : Stop → Error
  | .block b _ index cause => .inBlock (p.kindOf b).id index cause
  | .cancelled cause => .cancelled cause

def IsOf (p : Program) : Stop → Prop
  | .block b chain index cause => p.Stands b chain index ∧ (p.kindOf b).FailsWith cause
  | .cancelled _ => True

/-- A stop is blamed on nothing else. -/
theorem blame_error (p : Program) (s : Stop) (id : Text) (position : Int) :
    (s.error p).blame id position = s.error p := by
  cases s <;> rfl

end Stop

variable {α β : Type} {p : Program}

namespace Outcome

/-- As `Echoes`: `fine` are the results of work that was not stopped, and `raise` makes one of an error. -/
def Echoes (p : Program) (fine : α → Prop) (raise : Error → α) : Outcome α → ((Stop → Fault) → Outcome α) → Prop
  | .done a m, o' =>
    (fine a ∧ ∀ t, o' t = .done a m) ∨
      ∃ s k, s.IsOf p ∧ a = raise (s.error p) ∧ m.journal = k.journal ∧ ∀ t, o' t = .fault (t s) k
  | .fault f m, o' => ∀ t, o' t = .fault f m
  | .starved m, o' => ∀ t, o' t = .starved m
  | .paused m resume, o' =>
    ∃ resume' : (Stop → Fault) → Machine → Outcome α, (∀ t, o' t = .paused m (resume' t)) ∧
      ∀ k, m.MayResume k →
        (resume k).Echoes p fine raise (resume' · k) ∧
        ∀ cause, k.exec.cancelled = some cause → ∀ t, resume' t k = .fault (t (.cancelled cause)) k

variable {fine : α → Prop} {raise : Error → α} {fine' : β → Prop} {raise' : Error → β}

/-- What is stopped at once hands up the error, and does no more. -/
theorem Echoes.of_fault {o : Outcome α} {s : Stop} {k : Machine}
    (h : o.Echoes p fine raise fun t => .fault (t s) k) :
    ∃ m, o = .done (raise (s.error p)) m ∧ m.journal = k.journal := by
  cases o with
  | done a m =>
    obtain ⟨-, h⟩ | ⟨s', k', -, rfl, hj, h⟩ := h
    · cases h fun _ => .message []
    · -- The faults are the same whatever they are, so the stops are.
      have hstop : s' = s := by
        by_contra hne
        classical
        have hfault := h fun x => if x = s then .message [] else .error .noNative
        simp only [if_true, if_neg hne] at hfault
        cases hfault
      obtain rfl : k = k' := by
        have := h fun _ => .message []
        cases this
        rfl
      exact ⟨m, by rw [hstop], hj⟩
  | fault f m =>
    have h₁ := h fun _ => .message []
    have h₂ := h fun _ => .error .noNative
    cases h₁
    cases h₂
  | starved m => cases h fun _ => .message []
  | paused m resume =>
    obtain ⟨resume', h, -⟩ := h
    cases h fun _ => .message []

theorem Echoes.mono {o : Outcome α} {o' : (Stop → Fault) → Outcome α} {wide : α → Prop}
    (ho : o.Echoes p fine raise o') (h : ∀ a, fine a → wide a) : o.Echoes p wide raise o' := by
  induction o generalizing o' with
  | done a m => exact ho.imp (fun ⟨ha, h'⟩ => ⟨h a ha, h'⟩) id
  | fault f m => exact ho
  | starved m => exact ho
  | paused m resume ih =>
    obtain ⟨resume', h', hk⟩ := ho
    exact ⟨resume', h', fun k hm => ⟨ih k (hk k hm).1, (hk k hm).2⟩⟩

theorem Echoes.bind {Q : α → Machine → Prop} {E : Exits} {o : Outcome α} {o' : (Stop → Fault) → Outcome α}
    {f : α → Machine → Outcome β} {f' : (Stop → Fault) → α → Machine → Outcome β} (ho : o.Echoes p fine raise o')
    (hq : o.Meets Q E)
    (hf : ∀ a k, fine a → Q a k → (f a k).Echoes p fine' raise' fun t => f' t a k)
    (hr : ∀ (s : Stop) k, Q (raise (s.error p)) k →
      ∃ l, f (raise (s.error p)) k = .done (raise' (s.error p)) l ∧ l.journal = k.journal) :
    (o.bind f).Echoes p fine' raise' fun t => (o' t).bind (f' t) := by
  induction o generalizing o' with
  | done a m =>
    obtain ⟨ha, h⟩ | ⟨s, k, hs, rfl, hj, h⟩ := ho
    · simp only [h]
      exact hf a m ha hq
    · obtain ⟨l, hl, hlj⟩ := hr s m hq
      simp only [h]
      show (f (raise (s.error p)) m).Echoes p fine' raise' _
      rw [hl]
      exact .inr ⟨s, k, hs, rfl, hlj.trans hj, fun _ => rfl⟩
  | fault x m =>
    intro t
    dsimp only
    rw [ho t]
    rfl
  | starved m =>
    intro t
    dsimp only
    rw [ho t]
    rfl
  | paused m resume ih =>
    obtain ⟨resume', h, hk⟩ := ho
    refine ⟨fun t k => (resume' t k).bind (f' t), fun t => ?_, fun k hm => ⟨?_, fun cause hc t => ?_⟩⟩
    · dsimp only
      rw [h t]
      rfl
    · exact ih k (hk k hm).1 (hq.2 k hm)
    · dsimp only
      rw [(hk k hm).2 cause hc t]
      rfl

/-- What is the same in both runs, and does not wait. -/
theorem Echoes.after {o : Outcome α} {f : α → Machine → Outcome β}
    {f' : (Stop → Fault) → α → Machine → Outcome β}
    (h : o.Meets (fun a k => (f a k).Echoes p fine' raise' fun t => f' t a k) .swift) :
    (o.bind f).Echoes p fine' raise' fun t => o.bind (f' t) := by
  cases o with
  | done a m => exact h
  | fault x m => exact fun _ => rfl
  | starved m => exact fun _ => rfl
  | paused m resume => exact h.1.elim

theorem Echoes.refl {o : Outcome α} (h : o.Meets (fun a _ => fine a) .swift) :
    o.Echoes p fine raise fun _ => o := by
  cases o with
  | done a m => exact .inl ⟨h, fun _ => rfl⟩
  | fault x m => exact fun _ => rfl
  | starved m => exact fun _ => rfl
  | paused m resume => exact h.1.elim

end Outcome

namespace Work

variable {fine : α → Prop} {raise : Error → α} {fine' : β → Prop} {raise' : Error → β} {m : Machine}

/-- Work that goes the same way as a family of other work until that breaks down at a stop, and from
    there hands up the error of the stop. -/
def Echoes (p : Program) (fine : α → Prop) (raise : Error → α) (w : Work α) (w' : (Stop → Fault) → Work α)
    (m : Machine) : Prop :=
  (w m).Echoes p fine raise fun t => w' t m

theorem Echoes.of_apply {k : Machine} {w v : Work α} {w' v' : (Stop → Fault) → Work α}
    (h : v.Echoes p fine raise v' k) (hw : w m = v k) (hw' : ∀ t, w' t m = v' t k) : w.Echoes p fine raise w' m := by
  unfold Echoes at h ⊢
  simpa only [hw, hw'] using h

theorem Echoes.mono {w : Work α} {w' : (Stop → Fault) → Work α} {wide : α → Prop}
    (hw : w.Echoes p fine raise w' m) (h : ∀ a, fine a → wide a) : w.Echoes p wide raise w' m :=
  Outcome.Echoes.mono hw h

theorem echoes_bind {Q : α → Machine → Prop} {E : Exits} {w : Work α} {w' : (Stop → Fault) → Work α} {f : α → Work β}
    {f' : (Stop → Fault) → α → Work β} (hw : w.Echoes p fine raise w' m) (hq : w.Meets Q E m)
    (hf : ∀ a k, fine a → Q a k → (f a).Echoes p fine' raise' (f' · a) k)
    (hr : ∀ (s : Stop) k, Q (raise (s.error p)) k →
      ∃ l, f (raise (s.error p)) k = .done (raise' (s.error p)) l ∧ l.journal = k.journal) :
    (w >>= f).Echoes p fine' raise' (fun t => w' t >>= f' t) m := by
  unfold Echoes
  simp only [bind_apply]
  exact hw.bind hq hf hr

def Swift (w : Work α) : Prop := ∀ m, w.Meets (fun _ _ => True) .swift m

theorem Swift.meets {Q : α → Machine → Prop} {E : Exits} {w : Work α} (hw : w.Swift) (hq : w.Meets Q E m) :
    w.Meets Q .swift m :=
  Outcome.Meets.mono ((hw m).both hq) (fun _ _ h => h.2) (fun _ _ _ => trivial) (fun _ _ => trivial) fun _ h => h.1

theorem echoes_after {Q : α → Machine → Prop} {E : Exits} {w : Work α} {f : α → Work β}
    {f' : (Stop → Fault) → α → Work β} (hw : w.Swift) (hq : w.Meets Q E m)
    (hf : ∀ a k, Q a k → (f a).Echoes p fine' raise' (f' · a) k) :
    (w >>= f).Echoes p fine' raise' (fun t => w >>= f' t) m := by
  unfold Echoes
  simp only [bind_apply]
  exact .after ((hw.meets hq).weaken hf)

/-- What is read is the same in both runs. -/
theorem echoes_read (g : Machine → α) {f : α → Work β} {f' : (Stop → Fault) → α → Work β}
    (h : (f (g m)).Echoes p fine' raise' (f' · (g m)) m) :
    (read g >>= f).Echoes p fine' raise' (fun t => read g >>= f' t) m := h

theorem echoes_any (g : Machine → α) {f : α → Work β} {f' : (Stop → Fault) → α → Work β}
    (h : ∀ a, (f a).Echoes p fine' raise' (f' · a) m) :
    (read g >>= f).Echoes p fine' raise' (fun t => read g >>= f' t) m := h _

theorem echoes_refl {w : Work α} (h : w.Meets (fun a _ => fine a) .swift m) :
    w.Echoes p fine raise (fun _ => w) m := .refl h

/-! ## Work that ends without a pause -/

theorem Swift.then {Q : β → Machine → Prop} {w : Work α} {f : α → Work β} (hw : w.Swift)
    (hf : ∀ a k, (f a).Meets Q .swift k) : (w >>= f).Meets Q .swift m :=
  (meets_bind w f).mpr ((hw m).weaken fun a k _ => hf a k)

theorem swift_read (g : Machine → α) : (read g).Swift := fun _ => trivial

theorem swift_modify (g : Machine → Machine) : (modify g).Swift := fun _ => trivial

theorem swift_bind {w : Work α} {f : α → Work β} (hw : w.Swift) (hf : ∀ a, (f a).Swift) : (w >>= f).Swift :=
  fun _ => hw.then hf

theorem swift_pushOperand (v : Value) : (pushOperand v).Swift := by
  intro m
  rw [meets_pushOperand]
  split <;> trivial

theorem swift_pushAll (vs : List Value) : (pushAll vs).Swift := by
  induction vs with
  | nil => exact fun _ => trivial
  | cons v vs ih => exact swift_bind (swift_pushOperand v) fun _ => ih

theorem swift_blockAt (c : ChainId) (i : Nat) : (blockAt c i).Swift := by
  intro m
  rw [meets_blockAt]
  split <;> trivial

theorem swift_openBody (depth i : Nat) (v : Value) : (openBody depth i v).Swift := by
  refine swift_bind (fun m => ?_) fun _ => swift_bind (swift_read _) fun _ => swift_bind (swift_modify _) fun _ =>
    fun _ => trivial
  rw [meets_pushControl]
  split <;> trivial

theorem swift_takeBody (depth layer : Nat) : (takeBody depth layer).Swift := by
  refine swift_bind (fun m => ?_) fun _ => swift_bind (swift_modify _) fun _ => swift_bind (swift_modify _) fun _ =>
    fun _ => trivial
  rw [meets_popBody]
  split <;> trivial

end Work

end BlockEngine
