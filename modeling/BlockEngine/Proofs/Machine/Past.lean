/-
  BlockEngine.Proofs.Machine.Past — what was printed before makes no difference, nor does spare fuel.

  No part of the interpreter looks at the journal or at what the host holds of earlier output, but
  for how many lines its writer took: that counts where the writer does not take every line. So a
  chain does on a machine with some past what it does on the machine without, if the writer took as
  many lines or takes all, and what it prints and records is added on top. Nor does it matter how
  much fuel there is, once there is enough.

  Proved, for all programs and natives:
  - `invoke_mirrors`: an invocation that ends does so alike with more fuel and after any past.
  - `invoke_mono`: an invocation that ends with some fuel ends alike with more.
-/

import BlockEngine.Proofs.Machine.Relate

namespace BlockEngine.Work

variable {α β : Type} {l : Link}

def Mirrors (l : Link) (w w' : Work α) : Prop := ∀ m, l.Fits m → Follows l w w' m

theorem Blind.mirrors {w : Work α} (h : Blind l w) : Mirrors l w w := h

theorem mirrors_bind {w w' : Work α} {f f' : α → Work β} (hw : Mirrors l w w') (hf : ∀ a, Mirrors l (f a) (f' a)) :
    Mirrors l (w >>= f) (w' >>= f') :=
  fun m hm => follows_bind (hw m hm) fun a k _ _ hk => hf a k hk

theorem blind_mirrors {w : Work α} {f f' : α → Work β} (hw : Blind l w) (hf : ∀ a, Mirrors l (f a) (f' a)) :
    Mirrors l (w >>= f) (w >>= f') := mirrors_bind hw.mirrors hf

theorem mirrors_blind {w w' : Work α} {f : α → Work β} (hw : Mirrors l w w') (hf : ∀ a, Blind l (f a)) :
    Mirrors l (w >>= f) (w' >>= f) := mirrors_bind hw fun a => (hf a).mirrors

theorem starve_mirrors (h : l.firstStarves) (w' : Work α) : Mirrors l starve w' := fun m _ => .starved m _ h

/-- Two works are a family of one beside another. -/
theorem mirrors_iff_alike {w w' : Work α} : Mirrors l w w' ↔ Alike l (Pure.pure 0) l.Fits (fun _ => w) w' :=
  forall₂_congr fun _ _ => Filter.eventually_pure.symm

theorem evaluateWith_mirrors {eval eval' : Evaluator} {invoke invoke' : Invoker} (hs : Settling eval)
    (hr : Restoring invoke)
    (he : ∀ b index mark bare prior, Mirrors l (eval b index mark bare prior) (eval' b index mark bare prior))
    (hi : ∀ c args, Mirrors l (invoke c args) (invoke' c args)) (b : BlockId) (index : Int) (mark : Marker)
    (bare : Bool) (prior : Option Value) :
    Mirrors l (evaluateWith eval invoke b index mark bare prior)
      (evaluateWith eval' invoke' b index mark bare prior) := by
  refine mirrors_iff_alike.mpr (evaluateWith_alike ground_fits ?_ (fun _ => hs) ?_ (fun _ => hr) b index mark bare prior)
  · exact fun b index mark bare prior => mirrors_iff_alike.mp (he b index mark bare prior)
  · exact fun c args => mirrors_iff_alike.mp (hi c args)

/-! ## The walk -/

theorem blind_blockAt (c : ChainId) (i : Nat) : Blind l (blockAt c i) := by
  refine blind_bind (blind_read fun _ => rfl) fun bs => ?_
  split
  · exact blind_pure _
  · exact blind_crash _

theorem blind_badJump (c : ChainId) (i : Nat) : Blind l (badJump c i) :=
  blind_bind (blind_blockAt c i) fun _ => blind_bind (blind_read fun _ => rfl) fun _ => blind_pure _

theorem blind_takeBody (depth layer : Nat) : Blind l (takeBody depth layer) := by
  refine blind_bind blind_popBody fun frame => ?_
  refine blind_bind (blind_modify (fun _ => rfl) fun _ => rfl) fun _ => ?_
  exact blind_bind (blind_mapFrame _ _) fun _ => blind_pure _

theorem blind_leave (c : ChainId) (depth : Nat) (cursor : Cursor) (position target : Nat) (v : Value) (skip : Bool) :
    Blind l (leave c depth cursor position target v skip) := by
  refine blind_bind (blind_blockAt c position) fun b => ?_
  refine blind_bind (blind_read fun _ => rfl) fun d => ?_
  split
  · exact blind_bind (blind_openBody _ _ _) fun _ => blind_pure _
  · exact blind_bind (blind_release v) fun _ => blind_pure _

theorem blind_passOver (depth : Nat) (cursor : Cursor) (t : BlockType) : Blind l (passOver depth cursor t) := by
  unfold passOver
  dsimp only
  split
  · exact blind_bind (blind_openBody _ _ _) fun _ => blind_pure _
  · exact blind_pure _

section

variable {eval eval' : Evaluator}
  (he : ∀ b index mark bare prior, Mirrors l (eval b index mark bare prior) (eval' b index mark bare prior))
include he

theorem reenter_mirrors (c : ChainId) (depth : Nat) (cursor : Cursor) (t : BlockType) (opener : Nat) (v : Value) :
    Mirrors l (reenter eval c depth cursor t opener v) (reenter eval' c depth cursor t opener v) := by
  refine blind_mirrors (blind_blockAt c opener) fun b => mirrors_blind (he _ _ _ _ _) fun r => ?_
  split
  · exact blind_pure _
  · refine blind_bind (blind_read fun _ => rfl) fun finished => ?_
    split
    · exact blind_bind (blind_release _) fun _ => blind_pure _
    · split
      · refine blind_bind (blind_release _) fun _ => blind_bind (blind_read fun _ => rfl) fun bs => ?_
        split
        · exact blind_bind (blind_badJump c opener) fun _ => blind_pure _
        · exact blind_pure _
      · split
        · exact blind_bind (blind_release _) fun _ => blind_pure _
        · exact blind_pure _

theorem closeBody_mirrors (c : ChainId) (depth : Nat) (cursor : Cursor) (t : BlockType) :
    Mirrors l (closeBody eval c depth cursor t) (closeBody eval' c depth cursor t) := by
  rw [closeBody_eq, closeBody_eq]
  refine blind_mirrors (blind_read fun _ => rfl) fun layer => ?_
  cases layer with
  | zero =>
    cases t == .continuation with
    | true => exact (blind_pure _).mirrors
    | false => exact blind_underflow.mirrors
  | succ layer =>
    refine blind_mirrors (blind_takeBody depth (layer + 1)) fun frame => ?_
    obtain ⟨opener, v⟩ := frame
    unfold closeWith
    cases hs : (cursor.closedTo layer).suppressed with
    | none =>
      simp only [Nat.add_sub_cancel, hs]
      exact reenter_mirrors he c depth _ t opener v
    | some s =>
      simp only [Nat.add_sub_cancel, hs]
      refine (blind_bind (blind_release _) fun _ => ?_ : Blind l _).mirrors
      split <;> exact blind_pure _

theorem redirect_mirrors (c : ChainId) (depth : Nat) (cursor : Cursor) (target : Nat) (v : Value) :
    Mirrors l (redirect eval c depth cursor target v) (redirect eval' c depth cursor target v) := by
  refine blind_mirrors (blind_blockAt c target) fun b => mirrors_blind (he _ _ _ _ _) fun r => ?_
  split
  · exact blind_pure _
  · refine blind_bind (blind_read fun _ => rfl) fun finished => ?_
    split
    · exact blind_bind (blind_release _) fun _ => blind_pure _
    · exact blind_bind (blind_read fun _ => rfl) fun _ => blind_leave c depth cursor target _ _ _

theorem enter_mirrors (c : ChainId) (depth : Nat) (cursor : Cursor) (b : BlockId) (t : BlockType)
    (prior : Option Value) :
    Mirrors l (enter eval c depth cursor b t prior) (enter eval' c depth cursor b t prior) := by
  refine mirrors_bind (he _ _ _ _ _) fun r => ?_
  cases r with
  | error e => exact (blind_pure _).mirrors
  | ok va =>
    refine blind_mirrors (blind_read fun _ => rfl) fun finished => ?_
    cases finished with
    | true => exact (blind_bind (blind_release _) fun _ => blind_pure _).mirrors
    | false =>
      obtain ⟨v, jump, skip⟩ := va
      cases jump with
      | none => exact (blind_leave c depth _ _ _ _ _).mirrors
      | some j =>
        refine blind_mirrors (blind_read fun _ => rfl) fun bs => ?_
        dsimp only
        by_cases hj : bs.length < j
        · rw [if_pos hj, if_pos hj]
          exact (blind_bind (blind_release _) fun _ => blind_bind (blind_badJump c _) fun _ => blind_pure _).mirrors
        · rw [if_neg hj, if_neg hj]
          by_cases ht : (t == .continuation && j != cursor.position + 1 && decide (j < bs.length)) = true
          · rw [if_pos ht, if_pos ht]
            exact redirect_mirrors he c depth _ _ _
          · rw [if_neg ht, if_neg ht]
            exact (blind_leave c depth _ _ _ _ _).mirrors

theorem advance_mirrors (c : ChainId) (depth : Nat) (cursor : Cursor) :
    Mirrors l (advance eval c depth cursor) (advance eval' c depth cursor) := by
  rw [advance_eq, advance_eq]
  refine blind_mirrors (blind_read fun _ => rfl) fun bs => ?_
  cases bs[cursor.position]? with
  | none => exact (blind_pure _).mirrors
  | some b =>
    refine blind_mirrors (blind_read fun _ => rfl) fun cancelled => ?_
    cases cancelled with
    | some cause => exact (blind_pure _).mirrors
    | none =>
      refine blind_mirrors (blind_read fun _ => rfl) fun d => mirrors_bind ?_ fun closed => ?_
      · cases d.type.closes with
        | true => exact closeBody_mirrors he c depth cursor _
        | false => exact (blind_pure _).mirrors
      · cases closed with
        | onward cursor prior =>
          simp only [takeUp]
          cases cursor.suppressed.isSome with
          | true => exact (blind_passOver depth cursor _).mirrors
          | false => exact enter_mirrors he c depth cursor _ _ _
        | _ => exact (blind_pure _).mirrors

end

theorem invokeWith_mirrors {walk walk' : ChainId → Nat → Work (Option Error)}
    (hw : ∀ c depth, Mirrors l (walk c depth) (walk' c depth)) (c : ChainId) (args : List Value) :
    Mirrors l (invokeWith walk c args) (invokeWith walk' c args) := by
  rw [invokeWith_eq, invokeWith_eq]
  refine blind_mirrors (blind_read fun _ => rfl) fun base => blind_mirrors (blind_pushCall _) fun _ => ?_
  refine blind_mirrors (blind_read fun _ => rfl) fun depth => mirrors_blind (hw c depth) fun error => ?_
  refine blind_bind (blind_endCall depth base) fun v => ?_
  cases error with
  | none => exact blind_pure _
  | some e => exact blind_bind (blind_release v) fun _ => blind_pure _

/-- Evaluations, invocations and walks, with some fuel and with more. -/
theorem interpreter_mirrors (h : l.firstStarves) {n k : Nat} (hn : n ≤ k) :
    (∀ b index mark bare prior, Mirrors l (evaluate n b index mark bare prior) (evaluate k b index mark bare prior)) ∧
      (∀ c args, Mirrors l (invoke n c args) (invoke k c args)) ∧
      ∀ c depth cursor, Mirrors l (walk n c depth cursor) (walk k c depth cursor) := by
  induction n generalizing k with
  | zero =>
    refine ⟨fun b index mark bare prior => ?_, fun c args => ?_, fun c depth cursor => ?_⟩
    · rw [evaluate]
      exact starve_mirrors h _
    · rw [invoke]
      exact starve_mirrors h _
    · rw [walk]
      exact starve_mirrors h _
  | succ n ih =>
    cases k with
    | zero => exact absurd hn (Nat.not_succ_le_zero n)
    | succ k =>
      obtain ⟨he, hi, hw⟩ := ih (Nat.le_of_succ_le_succ hn)
      refine ⟨fun b index mark bare prior => ?_, fun c args => ?_, fun c depth cursor => ?_⟩
      · rw [evaluate, evaluate]
        exact evaluateWith_mirrors (keeps_scopes n).1 (keeps_scopes n).2.1 he hi b index mark bare prior
      · rw [invoke, invoke]
        exact invokeWith_mirrors (fun c depth => hw c depth {}) c args
      · rw [walk, walk]
        refine mirrors_bind (advance_mirrors he c depth cursor) fun turn => ?_
        cases turn with
        | next cursor => exact hw c depth cursor
        | stop error => exact (blind_pure _).mirrors

/-- An invocation that ends does so alike with more fuel and after any past. -/
theorem invoke_mirrors (h : l.firstStarves) {n k : Nat} (hn : n ≤ k) (c : ChainId) (args : List Value) :
    Mirrors l (invoke n c args) (invoke k c args) := (interpreter_mirrors h hn).2.1 c args

/-- An invocation that ends with some fuel ends alike with more. -/
theorem invoke_mono {host : Machine → Machine} (hh : ∀ m : Machine, m.MayResume (host m)) {n k : Nat} (hn : n ≤ k)
    {c : ChainId} {args : List Value} {m : Machine} {o : Outcome (Except Error Value)}
    (h : (invoke n c args m).driven host = o) (ho : o.Ended) : (invoke k c args m).driven host = o := by
  let l : Link := .here host hh (fun _ => False) (fun _ => False) True False
  have hmirrors : Outcome.Follows l ((invoke n c args m).driven host) ((invoke k c args (l.second m)).driven host) :=
    invoke_mirrors (l := l) trivial hn c args m (.inl rfl)
  rw [h, l.second_eq rfl rfl] at hmirrors
  refine hmirrors.eq rfl rfl (fun m hm => ?_) (fun _ _ => id) (fun _ _ _ => id) fun _ _ _ => id
  rw [hm] at ho
  exact ho.elim

/-- An invocation that ends well with some fuel breaks down with none. -/
theorem invoke_ne_fault {host : Machine → Machine} (hh : ∀ m : Machine, m.MayResume (host m)) {n : Nat} {c : ChainId}
    {args : List Value} {m k : Machine} {r : Except Error Value} (h : (invoke n c args m).driven host = .done r k)
    (j : Nat) (f : Fault) (k' : Machine) : (invoke j c args m).driven host ≠ .fault f k' := by
  intro hf
  have hdone := invoke_mono hh (Nat.le_max_left n j) h trivial
  have hfault := invoke_mono hh (Nat.le_max_right n j) hf trivial
  cases hdone.symm.trans hfault

end BlockEngine.Work
