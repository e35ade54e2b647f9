/-
  BlockEngine.Proofs.Machine.Scopes — invocations, bodies and bindings from step to step.

  The scopes of a machine are the bodies open in each of its invocations and the tags of its bindings.
  Nothing can happen to them but a binding made in the innermost open body, a body opened or closed, and an
  invocation begun or ended (`Scopes.Step`). What is closed takes its bindings with it.

  Proved of every history of steps from an idle machine:
  - `Step.lawful`: bindings stay in the order of their invocations and of the bodies there.
  - `Lawful.history`: the bindings that there are at its end are those that have held ever since they were
    made, the last one made first (`alive`).

  Work is followed from one machine that it shows to the next: each is one step from the last. Between what
  was shown last and what is shown next there is work on machines that are as shown, or one step late
  (`Work.Trails`).
-/

import BlockEngine.Proofs.Machine.Observed
import Mathlib.Data.List.Chain

namespace BlockEngine

/-! ## Scopes -/

/-- Invocations and bindings: how many bodies are open in each invocation under way, the innermost first, and
    the tags of the bindings, the last one made first. -/
structure Scopes where
  layers : List Nat
  tags : List Tag

def Exec.layers (x : Exec) : List Nat := x.calls.map (·.layer)

def Exec.scopes (x : Exec) : Scopes := ⟨x.layers, x.tags⟩

namespace Scopes

def layer? (s : Scopes) (depth : Nat) : Option Nat :=
  if depth = 0 then none else s.layers.reverse[depth - 1]?

/-- The invocation is under way in which a binding was made, and so is the body. -/
def holds (s : Scopes) (t : Tag) : Bool := (s.layer? t.depth).any (t.layer ≤ ·)

/-- Bindings lie in the order of their invocations and of the bodies there, and none has outlived its own. -/
structure Lawful (s : Scopes) : Prop where
  sorted : s.tags.Pairwise fun newer older =>
    older.depth < newer.depth ∨ older.depth = newer.depth ∧ older.layer ≤ newer.layer
  held : ∀ t ∈ s.tags, s.holds t

inductive Step : Scopes → Scopes → Prop
  | still (s : Scopes) : Step s s
  /-- A binding is made in the innermost open body. -/
  | declared (name : Text) (l : Nat) (ls : List Nat) (ts : List Tag) :
      Step ⟨l :: ls, ts⟩ ⟨l :: ls, ⟨name, ls.length + 1, l⟩ :: ts⟩
  | opened (l : Nat) (ls : List Nat) (ts : List Tag) : Step ⟨l :: ls, ts⟩ ⟨(l + 1) :: ls, ts⟩
  /-- The innermost open body is closed, and its bindings go. -/
  | closed (l : Nat) (ls : List Nat) (ts : List Tag) :
      Step ⟨(l + 1) :: ls, ts⟩ ⟨l :: ls, ts.filter (·.outlives (ls.length + 1) (l + 1))⟩
  | began (ls : List Nat) (ts : List Tag) : Step ⟨ls, ts⟩ ⟨0 :: ls, ts⟩
  /-- The innermost invocation has ended, and its bindings go. -/
  | ended (l : Nat) (ls : List Nat) (ts : List Tag) :
      Step ⟨l :: ls, ts⟩ ⟨ls, ts.filter (·.outlives (ls.length + 1) 0)⟩

variable {s s' : Scopes} {l : Nat} {ls : List Nat} {t : Tag}

theorem layer?_cons (l : Nat) (ls : List Nat) (ts ts' : List Tag) (depth : Nat) :
    layer? ⟨l :: ls, ts⟩ depth = if depth = ls.length + 1 then some l else layer? ⟨ls, ts'⟩ depth := by
  unfold layer?
  cases depth with
  | zero => simp
  | succ d =>
    simp only [Nat.add_eq_zero_iff, Nat.one_ne_zero, and_false, if_false, Nat.add_sub_cancel, List.reverse_cons,
      Nat.add_right_cancel_iff, List.getElem?_append, List.length_reverse]
    by_cases hd : d < ls.length
    · rw [if_pos hd, if_neg (Nat.ne_of_lt hd)]
    · rw [if_neg hd]
      by_cases he : d = ls.length
      · simp [he]
      · have hlt : ls.length < d := Nat.lt_of_le_of_ne (Nat.not_lt.mp hd) (Ne.symm he)
        rw [if_neg he, List.getElem?_eq_none (by simp; omega), List.getElem?_eq_none (by simp; omega)]

theorem holds_cons (l : Nat) (ls : List Nat) (ts ts' : List Tag) (t : Tag) :
    holds ⟨l :: ls, ts⟩ t = if t.depth = ls.length + 1 then decide (t.layer ≤ l) else holds ⟨ls, ts'⟩ t := by
  unfold holds
  rw [layer?_cons l ls ts ts']
  split <;> rfl

theorem holds.depth_le (h : s.holds t) : t.depth ≤ s.layers.length := by
  unfold holds layer? at h
  split at h
  · cases h
  · rcases Nat.lt_or_ge s.layers.length t.depth with hd | hd
    · rw [List.getElem?_eq_none (by rw [List.length_reverse]; omega)] at h
      cases h
    · exact hd

/-- Where all that follows what stays does, too, dropping from the front is filtering. -/
theorem dropWhile_eq_filter {p : Tag → Bool} {ts : List Tag} (h : ts.Pairwise fun a b => p a → p b) :
    ts.dropWhile (fun t => !p t) = ts.filter p := by
  induction ts with
  | nil => rfl
  | cons t ts ih =>
    obtain ⟨hle, hts⟩ := List.pairwise_cons.mp h
    cases ht : p t with
    | false =>
      rw [List.dropWhile_cons_of_pos (by simp [ht]), List.filter_cons_of_neg (by simp [ht])]
      exact ih hts
    | true =>
      rw [List.dropWhile_cons_of_neg (by simp [ht]), List.filter_cons_of_pos ht,
        List.filter_eq_self.mpr fun u hu => hle u hu ht]

/-- Closing bodies of the innermost invocation. -/
theorem Lawful.dropWhile_eq (hs : Lawful ⟨l :: ls, ts⟩) (floor : Nat) :
    ts.dropWhile (fun t => !t.outlives (ls.length + 1) floor) = ts.filter (·.outlives (ls.length + 1) floor) := by
  refine dropWhile_eq_filter (hs.sorted.imp fun {a b} hab ha => ?_)
  simp only [Tag.outlives, Bool.or_eq_true, Bool.and_eq_true, decide_eq_true_eq, beq_iff_eq] at ha ⊢
  omega

/-- A step keeps the law. -/
theorem Step.lawful (h : s.Step s') (hs : s.Lawful) : s'.Lawful := by
  cases h with
  | still => exact hs
  | declared name l ls ts =>
    refine ⟨List.pairwise_cons.mpr ⟨fun t ht => ?_, hs.sorted⟩, fun t ht => ?_⟩
    · have hheld := hs.held t ht
      have hd : t.depth ≤ ls.length + 1 := holds.depth_le hheld
      rw [holds_cons l ls ts []] at hheld
      split at hheld
      · rename_i he
        exact .inr ⟨he, by simpa using hheld⟩
      · exact .inl (by dsimp only; omega)
    · rcases List.mem_cons.mp ht with rfl | ht
      · rw [holds_cons _ _ _ []]
        simp
      · exact hs.held t ht
  | opened l ls ts =>
    refine ⟨hs.sorted, fun t ht => ?_⟩
    have hheld := hs.held t ht
    rw [holds_cons _ _ _ []] at hheld ⊢
    split at hheld
    · rw [if_pos ‹_›]
      simp only [decide_eq_true_eq] at hheld ⊢
      omega
    · rwa [if_neg ‹_›]
  | closed l ls ts =>
    refine ⟨hs.sorted.sublist List.filter_sublist, fun t ht => ?_⟩
    obtain ⟨ht, hout⟩ := List.mem_filter.mp ht
    have hheld := hs.held t ht
    rw [holds_cons _ _ _ []] at hheld ⊢
    split at hheld
    · rw [if_pos ‹_›]
      simp only [Tag.outlives, Bool.or_eq_true, Bool.and_eq_true, decide_eq_true_eq, beq_iff_eq] at hout ⊢
      omega
    · rwa [if_neg ‹_›]
  | began ls ts =>
    refine ⟨hs.sorted, fun t ht => ?_⟩
    have hheld := hs.held t ht
    have hd : t.depth ≤ ls.length := holds.depth_le hheld
    rw [holds_cons _ _ _ ts, if_neg (by omega)]
    exact hheld
  | ended l ls ts =>
    refine ⟨hs.sorted.sublist List.filter_sublist, fun t ht => ?_⟩
    obtain ⟨ht, hout⟩ := List.mem_filter.mp ht
    have hheld := hs.held t ht
    have hd : t.depth < ls.length + 1 := by simpa [Tag.outlives] using hout
    rw [holds_cons _ _ _ [], if_neg (by omega)] at hheld
    exact hheld

/-- What outlives the innermost open body is what still holds. -/
theorem Lawful.filter_closed (hs : Lawful ⟨(l + 1) :: ls, ts⟩) (ts' : List Tag) :
    ts.filter (·.outlives (ls.length + 1) (l + 1)) = ts.filter (holds ⟨l :: ls, ts'⟩) := by
  refine List.filter_congr fun t ht => ?_
  have hheld := hs.held t ht
  have hd : t.depth ≤ ls.length + 1 := holds.depth_le hheld
  rw [holds_cons _ _ _ []] at hheld ⊢
  by_cases he : t.depth = ls.length + 1
  · rw [if_pos he, Tag.outlives, he, decide_eq_false (Nat.lt_irrefl _), Bool.false_or, beq_self_eq_true, Bool.true_and]
    exact decide_eq_decide.mpr Nat.lt_succ_iff
  · rw [if_neg he] at hheld ⊢
    rw [hheld, Tag.outlives, decide_eq_true (Nat.lt_of_le_of_ne hd he), Bool.true_or]

/-- What outlives the innermost invocation is what still holds. -/
theorem Lawful.filter_ended (hs : Lawful ⟨l :: ls, ts⟩) (ts' : List Tag) :
    ts.filter (·.outlives (ls.length + 1) 0) = ts.filter (holds ⟨ls, ts'⟩) := by
  refine List.filter_congr fun t ht => ?_
  have hheld := hs.held t ht
  have hd : t.depth ≤ ls.length + 1 := holds.depth_le hheld
  rw [holds_cons _ _ _ ts'] at hheld
  by_cases he : t.depth = ls.length + 1
  · have hnot : holds ⟨ls, ts'⟩ t ≠ true := fun hc => by
      have := holds.depth_le hc
      dsimp only at this
      omega
    simp [Tag.outlives, he, hnot]
  · rw [if_neg he] at hheld
    rw [hheld, Tag.outlives, decide_eq_true (Nat.lt_of_le_of_ne hd he), Bool.true_or]

def made (s s' : Scopes) : List Tag := s'.tags.take (s'.tags.length - s.tags.length)

theorem made_filter (ls ls' : List Nat) (ts : List Tag) (p : Tag → Bool) : made ⟨ls, ts⟩ ⟨ls', ts.filter p⟩ = [] := by
  simp [made, Nat.sub_eq_zero_of_le (List.length_filter_le _ _)]

/-- What a step leaves is what it made and what it found, as far as that still holds. -/
theorem Step.tags_eq (h : s.Step s') (hs : s.Lawful) : s'.tags = (made s s' ++ s.tags).filter s'.holds := by
  have hkept : s'.tags = s'.tags.filter s'.holds := (List.filter_eq_self.mpr (h.lawful hs).held).symm
  cases h with
  | still => simpa [made] using hkept
  | declared name l ls ts => simpa [made] using hkept
  | opened l ls ts => simpa [made] using hkept
  | began ls ts => simpa [made] using hkept
  | closed l ls ts => rw [made_filter]; exact hs.filter_closed _
  | ended l ls ts => rw [made_filter]; exact hs.filter_ended _

/-! ## Histories -/

def Next (s s' : Scopes) : Prop := s.Lawful → s.Step s'

/-- What holds after some history: of all bindings made in it and of those that there were, the last one made
    first, those that have held ever since. -/
def aliveFrom : Scopes → List Tag → List Scopes → List Tag
  | _, live, [] => live
  | s, live, s' :: history => aliveFrom s' ((made s s' ++ live).filter s'.holds) history

def idle : Scopes := ⟨[], []⟩

def alive (history : List Scopes) : List Tag := aliveFrom idle [] history

theorem lawful_idle : idle.Lawful := ⟨.nil, fun _ h => absurd h List.not_mem_nil⟩

/-- Every history is one of steps, keeps the law, and leaves the bindings that have held since they were made. -/
theorem Lawful.history {history : List Scopes} (hs : s.Lawful) (h : (s :: history).IsChain Next) :
    (s :: history).IsChain Step ∧ (∀ s' ∈ history, s'.Lawful) ∧
      aliveFrom s s.tags history = ((s :: history).getLast (List.cons_ne_nil _ _)).tags := by
  induction history generalizing s with
  | nil => exact ⟨.singleton s, fun _ h => absurd h List.not_mem_nil, rfl⟩
  | cons s' history ih =>
    obtain ⟨hnext, hrest⟩ := List.isChain_cons_cons.mp h
    have hstep := hnext hs
    have hs' := hstep.lawful hs
    obtain ⟨hsteps, hlawful, halive⟩ := ih hs' hrest
    refine ⟨List.isChain_cons_cons.mpr ⟨hstep, hsteps⟩, fun t ht => ?_, ?_⟩
    · rcases List.mem_cons.mp ht with rfl | ht
      · exact hs'
      · exact hlawful t ht
    · rw [aliveFrom, ← hstep.tags_eq hs]
      exact halive

end Scopes

/-! ## Work from step to step -/

namespace Outcome

variable {α β : Type}

/-- Machines shown one after the other, up to some point. -/
inductive Path : Outcome α → List Machine → Prop
  | done (a : α) (m : Machine) : Path (.done a m) [m]
  | fault (f : Fault) (m : Machine) : Path (.fault f m) [m]
  | starved (m : Machine) : Path (.starved m) [m]
  | paused (m : Machine) (resume : Machine → Outcome α) : Path (.paused m resume) [m]
  | resumed {m k : Machine} {resume : Machine → Outcome α} {ms : List Machine} :
      m.MayResume k → Path (resume k) ms → Path (.paused m resume) (m :: ms)

/-- What is shown next is one step from what was shown last, first from `s`, and `Q` holds of the result, of
    what was shown last then, and of the machine. -/
def Along (Q : α → Scopes → Machine → Prop) : Outcome α → Scopes → Prop
  | .done a m, s => Q a s m
  | .fault _ m, s => s.Next m.exec.scopes
  | .starved m, s => s.Next m.exec.scopes
  | .paused m resume, s => s.Next m.exec.scopes ∧ ∀ k, m.MayResume k → (resume k).Along Q m.exec.scopes

theorem Along.mono {Q Q' : α → Scopes → Machine → Prop} {o : Outcome α} {s : Scopes} (h : o.Along Q s)
    (hQ : ∀ a s m, Q a s m → Q' a s m) : o.Along Q' s := by
  induction o generalizing s with
  | done a m => exact hQ a s m h
  | fault f m => exact h
  | starved m => exact h
  | paused m resume ih => exact ⟨h.1, fun k hk => ih k (h.2 k hk)⟩

theorem along_bind {Q : β → Scopes → Machine → Prop} {o : Outcome α} {f : α → Machine → Outcome β} {s : Scopes} :
    (o.bind f).Along Q s ↔ o.Along (fun a s m => (f a m).Along Q s) s := by
  induction o generalizing s with
  | done a m => exact Iff.rfl
  | fault g m => exact Iff.rfl
  | starved m => exact Iff.rfl
  | paused m resume ih => exact and_congr_right fun _ => forall_congr' fun k => imp_congr_right fun _ => ih k

/-- What is shown, from `s` on, is a history of steps. -/
theorem Along.chain {o : Outcome α} {s : Scopes} {ms : List Machine}
    (h : o.Along (fun _ s m => s.Next m.exec.scopes) s) (hp : o.Path ms) :
    (s :: ms.map (·.exec.scopes)).IsChain Scopes.Next := by
  induction hp generalizing s with
  | done a m => exact .cons_cons h (.singleton _)
  | fault f m => exact .cons_cons h (.singleton _)
  | starved m => exact .cons_cons h (.singleton _)
  | paused m resume => exact .cons_cons h.1 (.singleton _)
  | resumed hk _ ih => exact .cons_cons h.1 (ih (h.2 _ hk))

end Outcome

/-- The scopes are those shown last or, if `late`, one step on. -/
def Scopes.Within (late : Bool) (s s' : Scopes) : Prop := if late then s.Next s' else s = s'

theorem Scopes.Within.next {late : Bool} {s s' : Scopes} (h : s.Within late s') : s.Next s' := by
  cases late with
  | false => exact (h : s = s') ▸ fun _ => .still s
  | true => exact h

theorem Scopes.Within.refl (late : Bool) (s : Scopes) : s.Within late s := by
  cases late with
  | false => exact rfl
  | true => exact fun _ => .still s

theorem Machine.MayResume.scopes_eq {m k : Machine} (h : m.MayResume k) : k.exec.scopes = m.exec.scopes := by
  rw [h.2]
  rfl

def Turn.isNext : Turn → Bool
  | .next _ => true
  | .stop _ => false

namespace Work

variable {α β : Type} {late : Bool} {m : Machine}

/-- Work shows a history of steps. It is begun on a machine that may be `late`, and comes with its result to
    one that may be `late'` and of which `Q` holds. -/
def Trails (late : Bool) (late' : α → Bool) (w : Work α) (Q : α → Machine → Prop) (m : Machine) : Prop :=
  ∀ s : Scopes, s.Within late m.exec.scopes →
    (w m).Along (fun a s k => s.Within (late' a) k.exec.scopes ∧ Q a k) s

theorem trails_bind {late' : α → Bool} {late'' : β → Bool} {w : Work α} {f : α → Work β} {Q : α → Machine → Prop}
    {R : β → Machine → Prop} (hw : w.Trails late late' Q m) (hf : ∀ a k, Q a k → (f a).Trails (late' a) late'' R k) :
    (w >>= f).Trails late late'' R m := by
  intro s hs
  rw [bind_apply]
  exact Outcome.along_bind.mpr ((hw s hs).mono fun a s k hk => hf a k hk.2 s hk.1)

theorem Trails.mono {late' : α → Bool} {w : Work α} {Q Q' : α → Machine → Prop} (h : w.Trails late late' Q m)
    (hQ : ∀ a k, Q a k → Q' a k) : w.Trails late late' Q' m :=
  fun s hs => (h s hs).mono fun a _ k hk => ⟨hk.1, hQ a k hk.2⟩

theorem Trails.to_late {late' : α → Bool} {w : Work α} {Q : α → Machine → Prop} (h : w.Trails late late' Q m) :
    w.Trails late (fun _ => true) Q m := fun s hs => (h s hs).mono fun _ _ _ hk => ⟨hk.1.next, hk.2⟩

theorem trails_seen {late' : α → Bool} {w : Work α} {Q : α → Machine → Prop}
    (h : ∀ k, m.MayResume k → w.Trails false late' Q k) : (seen w).Trails late late' Q m :=
  fun _ hs => ⟨hs.next, fun k hk => h k hk _ hk.scopes_eq.symm⟩

def Still (w : Work α) : Prop :=
  ∀ m, w.Meets (fun _ k => k.exec.scopes = m.exec.scopes) (.all fun k => k.exec.scopes = m.exec.scopes) m

theorem still_bind {w : Work α} {f : α → Work β} (hw : w.Still) (hf : ∀ a, (f a).Still) : (w >>= f).Still := by
  intro m
  rw [meets_bind]
  refine (hw m).weaken fun a k hk => ?_
  have := hf a k
  rwa [hk] at this

theorem Still.trails {w : Work α} (h : w.Still) :
    w.Trails late (fun _ => late) (fun _ k => k.exec.scopes = m.exec.scopes) m := by
  intro s hs
  have hw := h m
  unfold Meets at hw
  generalize w m = o at hw
  induction o generalizing s with
  | done a k =>
    have hk : k.exec.scopes = m.exec.scopes := hw
    exact ⟨hk ▸ hs, hk⟩
  | fault f k =>
    have hk : k.exec.scopes = m.exec.scopes := hw
    exact hk ▸ hs.next
  | starved k =>
    have hk : k.exec.scopes = m.exec.scopes := hw
    exact hk ▸ hs.next
  | paused k resume ih =>
    have hk : k.exec.scopes = m.exec.scopes := hw.1
    refine ⟨hk ▸ hs.next, fun k' hk' => ih k' _ ?_ (hw.2 k' hk')⟩
    rw [hk]
    exact .refl late _

end Work

end BlockEngine
