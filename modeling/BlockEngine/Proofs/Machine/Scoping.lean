/-
  BlockEngine.Proofs.Machine.Scoping — how long a binding lives.

  Proved of every program and all natives:
  - `bindings_live_in_scope`: in every state of a run, bindings lie in the order of their invocations and of
    the bodies there, none of them in one that is over. A binding is there as long as the invocation lasts in
    which it was made and the body is open; what is closed takes exactly its own bindings and those of what
    was inside; and a name stands for the binding made last of those that are left.
-/

import BlockEngine.Proofs.Machine.Scopes

namespace BlockEngine

namespace Work

variable {α β : Type} {late : Bool} {m : Machine}

/-! ## Natives -/

theorem still_pure (a : α) : (Pure.pure a : Work α).Still := fun _ => rfl

theorem still_read (f : Machine → α) : (read f).Still := fun _ => rfl

theorem still_modify {f : Machine → Machine} (h : ∀ m, (f m).exec.scopes = m.exec.scopes) : (modify f).Still :=
  fun m => h m

theorem still_onStorage (f : Storage → α × Storage) : (onStorage f).Still := fun _ => rfl

theorem still_release (v : Value) : (release v).Still := fun _ => rfl

theorem still_crash (f : Fault) : (crash f : Work α).Still := fun _ => rfl

theorem still_pushOperand (v : Value) : (pushOperand v).Still := by
  intro m
  rw [meets_pushOperand]
  split <;> rfl

theorem still_pushControl (f : ControlFrame) : (pushControl f).Still := by
  intro m
  rw [meets_pushControl]
  split <;> rfl

theorem still_skipBody : skipBody.Still := by
  intro m
  unfold Meets skipBody
  split
  · rfl
  · split <;> rfl

theorem still_finish (v : Value) : (finish v).Still := by
  refine still_modify fun m => ?_
  split
  · rfl
  · rename_i f fs hm
    simp [Exec.scopes, Exec.layers, Exec.tags, hm]

theorem still_fail (e : Error) : (fail e).Still := fun _ => rfl

theorem still_assign (name : Text) (v : Value) : (assign name v).Still := by
  intro m
  unfold Meets assign
  split
  · rfl
  · rename_i i hi
    exact congrArg (Scopes.mk m.exec.layers) (Variable.Lasts.map_tag (Variable.Lasts.all_modify _ i v))

theorem still_fetch (name : Text) : (fetch name).Still := by
  refine still_bind (still_read _) fun x => ?_
  split
  · exact still_pure _
  · exact still_bind (still_onStorage _) fun _ => still_pure _

theorem still_argument (i : Int) : (argument i).Still := by
  refine still_bind (still_read _) fun fs => ?_
  split
  · exact still_pure _
  · split
    · exact still_onStorage _
    · exact still_pure _

theorem still_popData : popData.Still := by
  intro m
  unfold Meets popData
  split <;> rfl

theorem still_print (line : Text) : (print line).Still := by
  intro m
  unfold Meets print
  split <;> rfl

theorem still_cancelRun (cause : CancelCause) : (cancelRun cause).Still := by
  refine still_modify fun m => ?_
  dsimp only
  split <;> rfl

theorem still_pause : pause.Still := fun _ => ⟨rfl, fun _ hk => hk.scopes_eq⟩

/-- All that a native asks for, but bindings and calls. -/
theorem still_answer (invoke : Invoker) {r : Request} (hd : ∀ name v, r ≠ .declare name v)
    (hc : ∀ c args, r ≠ .call c args) : (answer invoke r).Still := by
  cases r with
  | skipBody => exact still_skipBody
  | finish v => exact still_finish v
  | declare name v => exact absurd rfl (hd name v)
  | assign name v => exact still_assign name v
  | fetch name => exact still_fetch name
  | pushData v => exact still_pushControl _
  | popData => exact still_popData
  | argument i => exact still_argument i
  | call c args => exact absurd rfl (hc c args)
  | print line => exact still_print line
  | cancelRun cause => exact still_cancelRun cause
  | pause => exact still_pause
  | _ => exact fun _ => rfl

/-- Work inside the innermost invocation, which may make bindings there, and after which the machine is shown. -/
def Keeps (w : Work α) : Prop :=
  ∀ m, m.exec.layers ≠ [] → w.Trails false (fun _ => false) (fun _ k => k.exec.layers = m.exec.layers) m

theorem Still.keeps {w : Work α} (h : w.Still) : w.Keeps :=
  fun _ _ => h.trails.mono fun _ _ hk => congrArg Scopes.layers hk

theorem keeps_bind {w : Work α} {f : α → Work β} (hw : w.Keeps) (hf : ∀ a, (f a).Keeps) : (w >>= f).Keeps := by
  intro m hm
  refine trails_bind (hw m hm) fun a k hk => ?_
  have := hf a k (by rwa [hk])
  rwa [hk] at this

theorem declare_trails (name : Text) (v : Value) (hm : m.exec.layers ≠ []) :
    (declare name v).Trails false (fun _ => true) (fun _ k => k.exec.layers = m.exec.layers) m := by
  rintro s rfl
  unfold declare
  rw [bind_apply]
  show Outcome.Along _ (pushVariable _ m) _
  unfold pushVariable
  split
  · refine ⟨fun _ => ?_, rfl⟩
    cases hc : m.exec.calls with
    | nil => simp [Exec.layers, hc] at hm
    | cons f fs =>
      have hstep := Scopes.Step.declared name f.layer (fs.map (·.layer)) m.exec.tags
      simpa [Exec.scopes, Exec.layers, Exec.tags, Exec.layer, Variable.tag, hc] using hstep
  · exact fun _ => .still _

theorem call_keeps {invoke : Invoker} (hi : ∀ c args, (invoke c args).Keeps) (c : Option ChainId)
    (args : List Value) : (call invoke c args).Keeps := by
  cases c with
  | none => exact keeps_bind (still_fail _).keeps fun _ => (still_pure _).keeps
  | some c =>
    refine keeps_bind (still_onStorage _).keeps fun bound => keeps_bind (hi c bound) fun r => ?_
    refine keeps_bind (still_modify fun _ => rfl).keeps fun _ => ?_
    cases r with
    | ok v => exact (still_pure v).keeps
    | error e => exact keeps_bind (still_fail e).keeps fun _ => (still_pure _).keeps

theorem answer_trails {invoke : Invoker} (hi : ∀ c args, (invoke c args).Keeps) (r : Request)
    (hm : m.exec.layers ≠ []) :
    (answer invoke r).Trails false (fun _ => true) (fun _ k => k.exec.layers = m.exec.layers) m := by
  by_cases hd : ∃ name v, r = .declare name v
  · obtain ⟨name, v, rfl⟩ := hd
    exact declare_trails name v hm
  by_cases hc : ∃ c args, r = .call c args
  · obtain ⟨c, args, rfl⟩ := hc
    exact (call_keeps hi c args m hm).to_late
  · exact ((still_answer invoke (fun name v e => hd ⟨name, v, e⟩) fun c args e => hc ⟨c, args, e⟩).keeps m hm).to_late

theorem performSeen_trails {invoke : Invoker} (hi : ∀ c args, (invoke c args).Keeps) (p : Proc α)
    (hm : m.exec.layers ≠ []) :
    (performSeen invoke p).Trails late (fun _ => false) (fun _ k => k.exec.layers = m.exec.layers) m := by
  induction p generalizing late m with
  | done a =>
    refine trails_seen fun k hk => ?_
    exact (still_pure a).trails.mono fun _ _ hk' => congrArg Scopes.layers (hk'.trans hk.scopes_eq)
  | crash f =>
    refine trails_seen fun k hk => ?_
    exact (still_crash f).trails.mono fun _ _ hk' => congrArg Scopes.layers (hk'.trans hk.scopes_eq)
  | ask r go ih =>
    refine trails_seen fun k hk => ?_
    have hlayers : k.exec.layers = m.exec.layers := congrArg Scopes.layers hk.scopes_eq
    refine trails_bind (answer_trails hi r (by rwa [hlayers])) fun reply k' hk' => ?_
    rw [← hlayers, ← hk']
    exact ih reply (by rwa [hk', hlayers])

/-! ## Evaluation -/

theorem still_pushAll (vs : List Value) : (pushAll vs).Still := by
  induction vs with
  | nil => exact still_pure ()
  | cons v vs ih => exact still_bind (still_pushOperand v) fun _ => ih

theorem still_releasePrior (prior : Option Value) : (releasePrior prior).Still := by
  cases prior with
  | none => exact still_pure ()
  | some v => exact still_release v

theorem still_truncateOperands (n : Nat) : (truncateOperands n).Still := still_modify fun _ => rfl

theorem still_pushHidden (d : Definition) (index : Int) (mark : Marker) (prior : Option Value) :
    (pushHidden d index mark prior).Still := by
  rw [pushHidden_eq]
  split
  · exact still_bind (still_releasePrior prior) fun _ => still_pure _
  · exact still_bind (still_pushAll _) fun _ => still_pure _

def Keeping (eval : Evaluator) : Prop := ∀ b index mark bare prior, (eval b index mark bare prior).Keeps

theorem pushSlot_keeps {eval : Evaluator} (he : Keeping eval) (d : Definition) (index : Int) (s : Slot) :
    (pushSlot eval d index s).Keeps := by
  unfold pushSlot
  split
  · exact (still_bind (still_pushOperand _) fun _ => still_pure _).keeps
  · exact (still_bind (still_pushOperand _) fun _ => still_pure _).keeps
  · split
    · exact (still_crash _).keeps
    · refine keeps_bind (he _ _ _ _ _) fun r => ?_
      split
      · exact (still_pure _).keeps
      · exact (still_bind (still_pushOperand _) fun _ => still_pure _).keeps
  · exact (still_pure _).keeps
  · exact (still_pure _).keeps

theorem pushSlots_keeps {eval : Evaluator} (he : Keeping eval) (d : Definition) (b : BlockId) (index : Int)
    (is : List Nat) : (pushSlots eval d b index is).Keeps := by
  induction is with
  | nil => exact (still_pure _).keeps
  | cons i is ih =>
    refine keeps_bind (still_read _).keeps fun s => ?_
    split
    · exact ih
    · refine keeps_bind (pushSlot_keeps he d index _) fun r => ?_
      split
      · exact (still_pure _).keeps
      · exact ih

theorem callNativeBy_keeps {perform : Proc Value → Work Value} (hp : ∀ p, (perform p).Keeps) (native : Native)
    (e : EvalState) (mark : Marker) (base : Nat) : (callNativeBy perform native e mark base).Keeps := by
  refine keeps_bind (still_read _).keeps fun args => keeps_bind (still_read _).keeps fun outer => ?_
  refine keeps_bind (still_modify fun _ => rfl).keeps fun _ => keeps_bind (hp _) fun v => ?_
  refine keeps_bind (still_read _).keeps fun inner => keeps_bind (still_modify fun _ => rfl).keeps fun _ => ?_
  exact keeps_bind (still_truncateOperands base).keeps fun _ => (still_pure _).keeps

theorem evaluateBy_keeping {eval : Evaluator} {perform : Proc Value → Work Value} (he : Keeping eval)
    (hp : ∀ p, (perform p).Keeps) : Keeping (evaluateBy eval perform) := by
  intro b index mark bare prior
  refine keeps_bind (still_read _).keeps fun d => ?_
  split
  · exact (still_bind (still_releasePrior prior) fun _ => still_pure _).keeps
  · refine keeps_bind (still_read _).keeps fun base => keeps_bind ?_ fun r => ?_
    · refine keeps_bind (still_pushHidden d index mark prior).keeps fun r => ?_
      split
      · exact (still_pure _).keeps
      · unfold pushDeclared
        split
        · exact (still_pure _).keeps
        · exact keeps_bind (still_read _).keeps fun n => pushSlots_keeps he d b index _
    · split
      · exact (still_bind (still_truncateOperands base) fun _ => still_pure _).keeps
      · refine keeps_bind (callNativeBy_keeps hp _ _ mark base) fun r => ?_
        obtain ⟨v, e⟩ := r
        dsimp only
        split
        · exact (still_bind (still_release _) fun _ => still_pure _).keeps
        · exact (still_pure _).keeps

/-! ## The walk -/

/-- An invocation is under way on top of others, with `ls` bodies open in them. -/
def Inside (ls : List Nat) (m : Machine) : Prop := ∃ l, m.exec.layers = l :: ls

/-- Work on an invocation, begun on a machine that may be `late`. -/
def Walks (ls : List Nat) (late : Bool) (late' : α → Bool) (w : Work α) : Prop :=
  ∀ m, Inside ls m → w.Trails late late' (fun _ k => Inside ls k) m

section

variable {ls : List Nat} {late' : α → Bool} {late'' : β → Bool}

theorem walks_bind {w : Work α} {f : α → Work β} (hw : w.Walks ls late late')
    (hf : ∀ a, (f a).Walks ls (late' a) late'') : (w >>= f).Walks ls late late'' :=
  fun m hm => trails_bind (hw m hm) fun a k hk => hf a k hk

theorem Still.walks {w : Work α} (h : w.Still) : w.Walks ls late fun _ => late := by
  rintro m ⟨l, hl⟩
  exact h.trails.mono fun _ k hk => ⟨l, (congrArg Scopes.layers hk).trans hl⟩

theorem Keeps.walks {w : Work α} (h : w.Keeps) : w.Walks ls false fun _ => false := by
  rintro m ⟨l, hl⟩
  exact (h m (by rw [hl]; exact List.cons_ne_nil _ _)).mono fun _ k hk => ⟨l, hk.trans hl⟩

theorem walks_pure (a : α) (h : late = true → late' a = true) : (Pure.pure a : Work α).Walks ls late late' := by
  intro m hm s hs
  refine ⟨?_, hm⟩
  cases late with
  | false => exact (hs : s = m.exec.scopes) ▸ .refl _ _
  | true => rw [h rfl]; exact hs

theorem Inside.calls_length {m : Machine} (h : Inside ls m) : m.exec.calls.length = ls.length + 1 := by
  obtain ⟨l, hl⟩ := h
  rw [← List.length_map (f := CallFrame.layer), ← List.length_cons, ← hl]
  rfl

theorem Inside.calls_ne {m : Machine} (h : Inside ls m) : m.exec.calls ≠ [] := by
  intro hc
  have := h.calls_length
  rw [hc] at this
  cases this

end

theorem layers_withLayer {l : Nat} {ls : List Nat} {x : Exec} (hx : x.layers = l :: ls) (layer : Nat) :
    (x.withLayer layer).layers = layer :: ls := by
  obtain ⟨f, fs, hc, -, hfs⟩ := List.map_eq_cons_iff.mp hx
  simp [Exec.layers, Exec.withLayer, hc, hfs]

theorem layer_eq {l : Nat} {ls : List Nat} {x : Exec} (hx : x.layers = l :: ls) : x.layer = l := by
  obtain ⟨f, fs, hc, hf, -⟩ := List.map_eq_cons_iff.mp hx
  simp [Exec.layer, hc, hf]

theorem openBody_walks {ls : List Nat} (i : Nat) (v : Value) :
    (openBody (ls.length + 1) i v).Walks ls false fun _ => true := by
  rintro m hm s rfl
  rw [openBody_apply hm.calls_length hm.calls_ne]
  obtain ⟨l, hl⟩ := hm
  split
  · have hlayers : (m.inBody i v).exec.layers = (l + 1) :: ls := by
      rw [← layer_eq hl]
      exact layers_withLayer hl _
    refine ⟨fun _ => ?_, l + 1, hlayers⟩
    have hstep := Scopes.Step.opened l ls m.exec.tags
    rw [← hl, ← hlayers] at hstep
    exact hstep
  · exact fun _ => .still _

theorem takeBody_trails {l : Nat} {ls : List Nat} (hl : m.exec.layers = (l + 1) :: ls) :
    (takeBody (ls.length + 1) (l + 1)).Trails false (fun _ => true) (fun _ k => Inside ls k) m := by
  rintro s rfl
  have hm : Inside ls m := ⟨_, hl⟩
  cases hc : m.exec.control with
  | nil =>
    simp only [takeBody, bind_apply, popBody, hc]
    exact fun _ => .still _
  | cons f rest =>
    cases f with
    | data v =>
      simp only [takeBody, bind_apply, popBody, hc]
      exact fun _ => .still _
    | body i v =>
      rw [takeBody_apply hm.calls_length hm.calls_ne hc]
      have hlayers : (m.outOfBody (l + 1) rest).exec.layers = l :: ls := layers_withLayer hl l
      refine ⟨fun hs => ?_, l, hlayers⟩
      have htags : (m.outOfBody (l + 1) rest).exec.tags = m.exec.tags.filter (·.outlives (ls.length + 1) (l + 1)) := by
        have hdrop := Scopes.Lawful.dropWhile_eq (hl ▸ hs : Scopes.Lawful ⟨(l + 1) :: ls, m.exec.tags⟩) (l + 1)
        rw [← hdrop, ← hm.calls_length]
        exact Exec.tags_closed _ _ _
      have hstep := Scopes.Step.closed l ls m.exec.tags
      rw [← hl, ← hlayers, ← htags] at hstep
      exact hstep

section

variable {eval : Evaluator} (he : Keeping eval) {ls : List Nat}

theorem still_blockAt (c : ChainId) (i : Nat) : (blockAt c i).Still := by
  refine still_bind (still_read _) fun bs => ?_
  split
  · exact still_pure _
  · exact still_crash _

theorem still_badJump (c : ChainId) (i : Nat) : (badJump c i).Still :=
  still_bind (still_blockAt c i) fun _ => still_bind (still_read _) fun _ => still_pure _

theorem leave_walks (c : ChainId) (cursor : Cursor) (position target : Nat) (v : Value) (skip : Bool) :
    (leave c (ls.length + 1) cursor position target v skip).Walks ls false Turn.isNext := by
  refine walks_bind (still_blockAt c position).walks fun b => walks_bind (still_read _).walks fun d => ?_
  split
  · exact walks_bind (openBody_walks position v) fun layer => walks_pure _ fun _ => rfl
  · exact walks_bind (still_release v).walks fun _ => walks_pure _ nofun

theorem passOver_walks (cursor : Cursor) (t : BlockType) :
    (passOver (ls.length + 1) cursor t).Walks ls false Turn.isNext := by
  unfold passOver
  dsimp only
  split
  · exact walks_bind (openBody_walks _ _) fun layer => walks_pure _ fun _ => rfl
  · exact walks_pure _ nofun

include he

theorem reenter_walks (c : ChainId) (depth : Nat) (cursor : Cursor) (t : BlockType) (opener : Nat) (v : Value) :
    (reenter eval c depth cursor t opener v).Walks ls false fun _ => false := by
  refine walks_bind (still_blockAt c opener).walks fun b => walks_bind (he _ _ _ _ _).walks fun r => ?_
  refine Still.walks ?_
  split
  · exact still_pure _
  · refine still_bind (still_read _) fun finished => ?_
    split
    · exact still_bind (still_release _) fun _ => still_pure _
    · split
      · refine still_bind (still_release _) fun _ => still_bind (still_read _) fun bs => ?_
        split
        · exact still_bind (still_badJump c opener) fun _ => still_pure _
        · exact still_pure _
      · split
        · exact still_bind (still_release _) fun _ => still_pure _
        · exact still_pure _

theorem closeWith_walks (c : ChainId) (depth : Nat) (t : BlockType) (cursor : Cursor) (opener : Nat) (v : Value) :
    (closeWith eval c depth t cursor opener v).Walks ls false fun _ => false := by
  unfold closeWith
  split
  · refine (still_bind (still_release v) fun _ => ?_).walks
    split <;> exact still_pure _
  · exact reenter_walks he c depth cursor t opener v

theorem closeBodyBy_walks (c : ChainId) (cursor : Cursor) (t : BlockType) :
    (closeBodyBy seen eval c (ls.length + 1) cursor t).Walks ls false fun _ => false := by
  intro m hm s hs
  have hlayer := layerAt_apply hm.calls_length hm.calls_ne
  unfold closeBodyBy
  rw [bind_apply, hlayer]
  obtain ⟨l, hl⟩ := hm
  rw [layer_eq hl]
  revert s
  show Trails _ _ (if l = 0 then _ else _) _ m
  cases l with
  | zero =>
    refine Still.walks ?_ m ⟨0, hl⟩
    simp only [if_pos]
    split
    · exact still_pure _
    · exact still_bind (still_read _) fun _ => still_crash _
  | succ l =>
    refine trails_bind (takeBody_trails hl) fun frame k hk => trails_seen fun k' hk' => ?_
    obtain ⟨l', hl'⟩ := hk
    exact closeWith_walks he c _ t _ _ _ k' ⟨l', (congrArg Scopes.layers hk'.scopes_eq).trans hl'⟩

theorem redirect_walks (c : ChainId) (cursor : Cursor) (target : Nat) (v : Value) :
    (redirect eval c (ls.length + 1) cursor target v).Walks ls false Turn.isNext := by
  refine walks_bind (still_blockAt c target).walks fun b => walks_bind (he _ _ _ _ _).walks fun r => ?_
  split
  · exact walks_pure _ nofun
  · refine walks_bind (still_read _).walks fun finished => ?_
    split
    · exact walks_bind (still_release _).walks fun _ => walks_pure _ nofun
    · exact walks_bind (still_read _).walks fun _ => leave_walks c cursor target _ _ _

theorem enter_walks (c : ChainId) (cursor : Cursor) (b : BlockId) (t : BlockType) (prior : Option Value) :
    (enter eval c (ls.length + 1) cursor b t prior).Walks ls false Turn.isNext := by
  refine walks_bind (he _ _ _ _ _).walks fun r => ?_
  split
  · exact walks_pure _ nofun
  · refine walks_bind (still_read _).walks fun finished => ?_
    split
    · exact walks_bind (still_release _).walks fun _ => walks_pure _ nofun
    · split
      · exact leave_walks c _ _ _ _ _
      · refine walks_bind (still_read _).walks fun bs => ?_
        dsimp only
        split
        · refine walks_bind (still_release _).walks fun _ => walks_bind (still_badJump c _).walks fun _ => ?_
          exact walks_pure _ nofun
        · split
          · exact redirect_walks he c _ _ _
          · exact leave_walks c _ _ _ _ _

theorem advanceBy_walks (c : ChainId) (cursor : Cursor) :
    (advanceBy (closeBodyBy seen eval c (ls.length + 1)) eval c (ls.length + 1) cursor).Walks ls false Turn.isNext := by
  refine walks_bind (still_read _).walks fun bs => ?_
  split
  · exact walks_pure _ nofun
  · refine walks_bind (still_read _).walks fun cancelled => ?_
    split
    · exact walks_pure _ nofun
    · refine walks_bind (still_read _).walks fun d =>
        walks_bind (?_ : Walks ls false (fun _ => false) _) fun closed => ?_
      · split
        · exact closeBodyBy_walks he c cursor d.type
        · exact (still_pure _).walks
      · rcases closed with turn | ⟨cursor, prior⟩
        · exact walks_pure _ nofun
        · simp only [takeUp]
          split
          · exact passOver_walks _ _
          · exact enter_walks he c _ _ _ _

end

/-! ## Invocations -/

theorem trails_read (f : Machine → α) : (read f).Trails late (fun _ => late) (fun a k => a = f m ∧ k = m) m :=
  fun _ hs => ⟨hs, rfl, rfl⟩

theorem pushCall_trails (args : List Value) :
    (pushCall { args := args }).Trails false (fun _ => true) (fun _ k => k.exec.layers = 0 :: m.exec.layers) m := by
  rintro s rfl
  unfold pushCall
  split
  · exact ⟨fun _ => .began _ _, rfl⟩
  · exact fun _ => .still _

theorem endCall_trails {ls : List Nat} (hm : Inside ls m) (base : Nat) :
    (endCall (ls.length + 1) base).Trails false (fun _ => true) (fun _ k => k.exec.layers = ls) m := by
  rintro s rfl
  obtain ⟨l, hl⟩ := hm
  obtain ⟨f, fs, hc, -, hfs⟩ := List.map_eq_cons_iff.mp hl
  rw [← Inside.calls_length ⟨l, hl⟩, endCall_apply hc]
  have hlayers : (ended base m).exec.layers = ls := by simp [ended, Exec.layers, hc, hfs]
  refine ⟨fun hs => ?_, hlayers⟩
  have htags : (ended base m).exec.tags = m.exec.tags.filter (·.outlives (ls.length + 1) 0) := by
    have hdrop := Scopes.Lawful.dropWhile_eq (hl ▸ hs : Scopes.Lawful ⟨l :: ls, m.exec.tags⟩) 0
    rw [← hdrop, ← Inside.calls_length ⟨l, hl⟩]
    exact Exec.tags_closed _ _ _
  have hstep := Scopes.Step.ended l ls m.exec.tags
  rw [← hl, ← htags] at hstep
  rw [← hlayers] at hstep
  exact hstep

/-- An invocation is a history of steps that ends where it began. -/
theorem invokeWith_trails {walk : ChainId → Nat → Work (Option Error)}
    (hw : ∀ c ls, (walk c (ls.length + 1)).Walks ls true fun _ => false) (c : ChainId) (args : List Value) :
    (seenAfter (invokeWith walk c args)).Trails false (fun _ => false)
      (fun _ k => k.exec.layers = m.exec.layers) m := by
  have hinvoke :
      (invokeWith walk c args).Trails false (fun _ => true) (fun _ k => k.exec.layers = m.exec.layers) m := by
    rw [invokeWith_eq]
    refine trails_bind (trails_read _) fun base k hk => ?_
    obtain ⟨-, rfl⟩ := hk
    refine trails_bind (pushCall_trails args) fun _ k₁ hk₁ => trails_bind (trails_read _) fun depth k₂ hk₂ => ?_
    obtain ⟨rfl, rfl⟩ := hk₂
    rw [Inside.calls_length ⟨0, hk₁⟩]
    refine trails_bind (hw c _ k₂ ⟨0, hk₁⟩) fun error k₃ hk₃ => trails_bind (endCall_trails hk₃ base) fun v k₄ hk₄ => ?_
    have hlayers : ∀ {l : Machine}, l.exec.scopes = k₄.exec.scopes → l.exec.layers = k.exec.layers := fun h =>
      (congrArg Scopes.layers h).trans hk₄
    cases error with
    | none => exact (still_pure _).trails.mono fun _ _ h => hlayers h
    | some e => exact (still_bind (still_release v) fun _ => still_pure _ : Still _).trails.mono fun _ _ h => hlayers h
  refine trails_bind hinvoke fun r k hk => trails_seen fun k' hk' => ?_
  exact (still_pure r).trails.mono fun _ _ h => (congrArg Scopes.layers (h.trans hk'.scopes_eq)).trans hk

/-- Evaluations, invocations and walks. -/
theorem seen_keeps (n : Nat) :
    Keeping (evaluateSeen n) ∧
    (∀ c args m, (invokeSeen n c args).Trails false (fun _ => false) (fun _ k => k.exec.layers = m.exec.layers) m) ∧
    ∀ c ls cursor, (walkSeen n c (ls.length + 1) cursor).Walks ls true fun _ => false := by
  induction n with
  | zero =>
    refine ⟨fun b index mark bare prior m hm s hs => ?_, fun c args m s hs => ?_, fun c ls cursor m hm s hs => ?_⟩
    · rw [evaluateSeen]
      exact hs.next
    · rw [invokeSeen]
      exact hs.next
    · rw [walkSeen]
      exact hs.next
  | succ n ih =>
    obtain ⟨he, hi, hw⟩ := ih
    refine ⟨?_, fun c args m => ?_, fun c ls cursor m hm => ?_⟩
    · rw [evaluateSeen]
      exact evaluateBy_keeping he fun p m hm => performSeen_trails (fun c args m _ => hi c args m) p hm
    · rw [invokeSeen]
      exact invokeWith_trails (fun c ls => hw c ls {}) c args
    · rw [walkSeen]
      refine trails_seen fun k hk => ?_
      obtain ⟨l, hl⟩ := hm
      have hk' : Inside ls k := ⟨l, (congrArg Scopes.layers hk.scopes_eq).trans hl⟩
      refine walks_bind (advanceBy_walks he c cursor) (fun turn => ?_) k hk'
      cases turn with
      | next cursor => exact hw c ls cursor
      | stop error => exact walks_pure _ fun h => by cases h

/-! ## Runs -/

theorem Along.attempt {o : Outcome α} {s : Scopes} {Q : α → Machine → Prop}
    (h : o.Along (fun a s k => s = k.exec.scopes ∧ Q a k) s) :
    o.attempt.Along (fun r s k => match r with
      | .ok _ => s = k.exec.scopes
      | .error _ => s.Next k.exec.scopes) s := by
  induction o generalizing s with
  | done a m => exact h.1
  | fault f m => exact h
  | starved m => exact h
  | paused m resume ih => exact ⟨h.1, fun k hk => ih k (h.2 k hk)⟩

theorem runMains_along {invoke : Invoker}
    (hi : ∀ c args m, (invoke c args).Trails false (fun _ => false) (fun _ k => k.exec.layers = m.exec.layers) m)
    (cs : List ChainId) (results : List Value) (m : Machine) :
    (runMains invoke cs results m).Along (fun _ s k => s.Next k.exec.scopes) m.exec.scopes := by
  induction cs generalizing results m with
  | nil => exact fun _ => .still _
  | cons c cs ih =>
    unfold runMains
    rw [bind_apply]
    show Outcome.Along _ ((if !m.program.isMain c then _ else _ : Work Ending) m) _
    split
    · exact ih results m
    · rw [bind_apply]
      refine Outcome.along_bind.mpr ((Along.attempt (hi c [] m _ rfl)).mono fun r s k hk => ?_)
      rcases r with f | (e | v)
      · exact hk
      · exact (hk : s = k.exec.scopes) ▸ fun _ => .still _
      · exact (hk : s = k.exec.scopes) ▸ ih _ k

/-- What an observed run shows is a history of steps. -/
theorem worker_chain {n : Nat} {r : RegistryId} {cs : List ChainId} {cause : Option CancelCause} {m : Machine}
    {ms : List Machine} (h : (worker (invokeSeen n) r cs cause m).Path ms) :
    (Scopes.idle :: ms.map (·.exec.scopes)).IsChain Scopes.Next :=
  (runMains_along (seen_keeps n).2.1 cs [] _).chain h

end Work

open Work

/-- What looking up and binding a name anew come to, where the binding of the name has this number, if there is
    one. -/
def Machine.Uses (m : Machine) (name : Text) : Option Nat → Prop
  | none => fetch name m = .done none m ∧ ∀ v, assign name v m = .done false m
  | some i => ∃ x, m.exec.bindings[i]? = some x ∧
      fetch name m = .done (some (m.storage.copy x.value).1) { m with storage := (m.storage.copy x.value).2 } ∧
      ∀ v, assign name v m = .done true
        { m with
          exec.bindings := m.exec.bindings.set i (x.bind v)
          storage := m.storage.release x.value }

theorem Machine.uses_first (m : Machine) (name : Text) : m.Uses name (m.exec.tags.findIdx? (·.name == name)) := by
  have hidx : m.exec.tags.findIdx? (·.name == name) = m.exec.bindings.findIdx? (·.name == name) := List.findIdx?_map
  rw [hidx]
  cases hi : m.exec.bindings.findIdx? (·.name == name) with
  | none =>
    have hfind : m.exec.bindings.find? (·.name == name) = none :=
      List.find?_eq_none.mpr fun x hx => by simpa using List.findIdx?_eq_none_iff.mp hi x hx
    refine ⟨?_, fun v => ?_⟩
    · simp only [fetch, bind_apply, Work.read, Outcome.bind, hfind]
      rfl
    · simp only [assign, hi]
  | some i =>
    obtain ⟨hlt, hname, hbefore⟩ := List.findIdx?_eq_some_iff_getElem.mp hi
    have hget : m.exec.bindings[i]? = some m.exec.bindings[i] := List.getElem?_eq_getElem hlt
    have hfind : m.exec.bindings.find? (·.name == name) = some m.exec.bindings[i] :=
      List.find?_eq_some_iff_getElem.mpr ⟨hname, i, hlt, rfl, fun j hj => by simpa using hbefore j hj⟩
    refine ⟨_, hget, ?_, fun v => ?_⟩
    · simp only [fetch, bind_apply, Work.read, Outcome.bind, hfind]
      rfl
    · have hset : m.exec.bindings.modify i (·.bind v) = m.exec.bindings.set i (m.exec.bindings[i].bind v) := by
        rw [List.modify_eq_set_getElem?, hget]
        rfl
      simp only [assign, hi, hget, Option.map_some, Option.getD_some, hset]

theorem frame?_of_holds {x : Exec} {t : Tag} (h : x.scopes.holds t) :
    t.depth ≤ x.calls.length ∧ ∃ f, x.frame? t.depth = some f ∧ t.layer ≤ f.layer := by
  have hd : t.depth ≤ x.calls.length := by
    have := Scopes.holds.depth_le h
    rwa [show x.scopes.layers = x.calls.map (·.layer) from rfl, List.length_map] at this
  refine ⟨hd, ?_⟩
  unfold Scopes.holds Scopes.layer? at h
  unfold Exec.frame?
  by_cases hz : t.depth = 0
  · simp [hz] at h
  · rw [if_neg hz] at h ⊢
    rw [show x.scopes.layers = x.calls.map (·.layer) from rfl,
      List.getElem?_reverse (by rw [List.length_map]; omega), List.length_map, List.getElem?_map,
      show x.calls.length - 1 - (t.depth - 1) = x.calls.length - t.depth by omega] at h
    cases hf : x.calls[x.calls.length - t.depth]? with
    | none => simp [hf] at h
    | some f => exact ⟨f, rfl, by simpa [hf] using h⟩

open Scopes in
/-- In every state of an observed run, which is the run but for pauses,
    - bindings are sorted by depth and layer, each has the depth of an invocation under way, and no higher layer
      than this has bodies open;
    - the bindings are those made so far whose invocation and body have lasted ever since, the last one made
      first, and from one state to the next there is never more than a `Step`;
    - looking up a name and binding it anew use the first binding of that name. -/
theorem bindings_live_in_scope (n : Nat) (r : RegistryId) (cs : List ChainId) (cause : Option CancelCause) (m : Machine)
    {ms : List Machine} {k : Machine} (h : (worker (invokeSeen n) r cs cause m).Path ms) (hk : ms.getLast? = some k) :
    let history := ms.map (·.exec.scopes)
    (worker (invokeSeen n) r cs cause m).Elides (worker (invoke n) r cs cause m) ∧
    (k.exec.tags.Pairwise fun newer older =>
      older.depth < newer.depth ∨ older.depth = newer.depth ∧ older.layer ≤ newer.layer) ∧
    (∀ t ∈ k.exec.tags, t.depth ≤ k.exec.calls.length ∧ ∃ f, k.exec.frame? t.depth = some f ∧ t.layer ≤ f.layer) ∧
    k.exec.tags = alive history ∧
    (idle :: history).IsChain Step ∧
    ∀ name, k.Uses name ((alive history).findIdx? (·.name == name)) := by
  intro history
  obtain ⟨hsteps, hlawful, halive⟩ := lawful_idle.history (worker_chain h)
  have hlast : history.getLast? = some k.exec.scopes := by
    rw [List.getLast?_map, hk]
    rfl
  have hk' : k.exec.scopes.Lawful := hlawful _ (List.mem_of_getLast? hlast)
  have htags : k.exec.tags = alive history := by
    have hend : (idle :: history).getLast (List.cons_ne_nil _ _) = k.exec.scopes := by
      rw [List.getLast_eq_iff_getLast?_eq_some, List.getLast?_cons, hlast]
      rfl
    exact (halive.trans (congrArg Scopes.tags hend)).symm
  refine ⟨worker_elides n r cs cause m, hk'.sorted, fun t ht => frame?_of_holds (hk'.held t ht), htags, hsteps, ?_⟩
  intro name
  rw [← htags]
  exact k.uses_first name

def bindsX : Native := fun _ => do
  Proc.declare "x" .nothing
  return .nothing

/-- An entry chain that binds a name before a body, on entering it, within it, and again where it is closed. -/
def rebinding : Machine where
  program :=
    { registries := #[{ kinds := #[
        { id := [], type := .hat, native := some bindsX }, { id := [], type := .control, native := some bindsX },
        { id := [], native := some bindsX }, { id := [], type := .terminator }] }]
      blocks := #[⟨0, ⟨0, 1⟩, 0, [], none, []⟩, ⟨0, ⟨1, 1⟩, 1, [], none, []⟩, ⟨0, ⟨2, 1⟩, 2, [], none, []⟩, ⟨0, ⟨3, 1⟩, 3, [], none, []⟩]
      chains := #[[0, 1, 2, 3]] }
  exec := { limits := .standard }

def Outcome.shown {α : Type} : Outcome α → Nat → List Machine
  | .paused m resume, n + 1 => m :: (resume m).shown n
  | .paused m _, 0 => [m]
  | .done _ m, _ => [m]
  | .fault _ m, _ => [m]
  | .starved m, _ => [m]

theorem Outcome.path_shown {α : Type} (o : Outcome α) (n : Nat) : o.Path (o.shown n) := by
  induction o generalizing n with
  | done a m => exact .done a m
  | fault f m => exact .fault f m
  | starved m => exact .starved m
  | paused m resume ih =>
    cases n with
    | zero => exact .paused m resume
    | succ n => exact .resumed (.refl m) (ih m n)

theorem bindings_live_in_scope_rebinding :
    ∃ ms k, (worker (invokeSeen 12) 0 [0] none rebinding).Path ms ∧ ms.getLast? = some k ∧
      k.exec.tags.map (·.layer) = [1, 0, 0] ∧ k.exec.tags = Scopes.alive (ms.map (·.exec.scopes)) := by
  have hlayers : (((worker (invokeSeen 12) 0 [0] none rebinding).shown 8).getLast?.map fun k =>
      k.exec.tags.map (·.layer)) = some [1, 0, 0] := by decide +kernel
  obtain ⟨k, hk, hlayers⟩ := Option.map_eq_some_iff.mp hlayers
  have hpath := (worker (invokeSeen 12) 0 [0] none rebinding).path_shown 8
  exact ⟨_, k, hpath, hk, hlayers, (bindings_live_in_scope 12 0 [0] none rebinding hpath hk).2.2.2.1⟩

end BlockEngine
