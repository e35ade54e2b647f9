/-
  BlockEngine.Proofs.Machine.Scope — bindings, frames and operands, whatever the natives do.

  A binding is known by its tag: its name, how many invocations were under way when it was made,
  and how many bodies were open in the innermost of them. On the stack of a run the bindings of
  each invocation lie together, above those of the invocations below it, the ones of inner bodies
  above those of outer bodies (`Scoped`).

  Proved of all natives, for invocations that restore what they found:
  - `perform_tame`: a native leaves the operands alone, and of frames and bindings all but the
    result of the innermost invocation and new bindings of the innermost open body.
  - `evaluateWith_settling`: evaluating a block does no more than its native.
-/

import BlockEngine.Proofs.Machine.Operands
import Mathlib.Data.List.Forall2

namespace BlockEngine

open List (Forall₂)

/-! ## Tags -/

structure Tag where
  name : Text
  depth : Nat
  layer : Nat

def Tag.outlives (depth layer : Nat) (t : Tag) : Bool :=
  decide (t.depth < depth) || (t.depth == depth && decide (t.layer < layer))

def Variable.tag (v : Variable) : Tag := ⟨v.name, v.depth, v.layer⟩

def Exec.tags (x : Exec) : List Tag := x.bindings.map Variable.tag

/-- A binding and what has become of it. As long as it is not bound anew it keeps its value. -/
structure Variable.Lasts (x y : Variable) : Prop where
  tag : y.tag = x.tag
  rebound : x.rebound ≤ y.rebound
  value : y.rebound = x.rebound → y.value = x.value

namespace Variable.Lasts

variable {x y z : Variable} {xs ys zs : List Variable}

theorem refl (x : Variable) : x.Lasts x := ⟨rfl, Nat.le_refl _, fun _ => rfl⟩

theorem trans (h : x.Lasts y) (h' : y.Lasts z) : x.Lasts z := by
  refine ⟨h'.tag.trans h.tag, Nat.le_trans h.rebound h'.rebound, fun hz => ?_⟩
  have hy : y.rebound = x.rebound := Nat.le_antisymm (hz ▸ h'.rebound) h.rebound
  exact (h'.value (hz.trans hy.symm)).trans (h.value hy)

theorem bind (x : Variable) (v : Value) : x.Lasts (x.bind v) :=
  ⟨rfl, Nat.le_succ _, fun h => absurd h (Nat.succ_ne_self _)⟩

theorem all_refl (xs : List Variable) : Forall₂ Lasts xs xs := List.forall₂_same.mpr fun x _ => refl x

theorem all_trans (h : Forall₂ Lasts xs ys) (h' : Forall₂ Lasts ys zs) : Forall₂ Lasts xs zs := by
  induction h generalizing zs with
  | nil => exact h'
  | cons hx _ ih =>
    cases h' with
    | cons hy hys => exact .cons (hx.trans hy) (ih hys)

theorem all_modify (xs : List Variable) (i : Nat) (v : Value) : Forall₂ Lasts xs (xs.modify i (·.bind v)) := by
  induction xs generalizing i with
  | nil => simp
  | cons x xs ih =>
    cases i with
    | zero => exact .cons (bind x v) (all_refl xs)
    | succ i => exact .cons (refl x) (ih i)

theorem map_tag (h : Forall₂ Lasts xs ys) : ys.map Variable.tag = xs.map Variable.tag := by
  induction h with
  | nil => rfl
  | cons hx _ ih => rw [List.map_cons, List.map_cons, hx.tag, ih]

/-- What is true of the tags of some bindings is so of those of what has become of them. -/
theorem forall_tag {P : Tag → Prop} (h : ys.map Variable.tag = xs.map Variable.tag) (hxs : ∀ x ∈ xs, P x.tag) :
    ∀ y ∈ ys, P y.tag :=
  List.forall_mem_map.mp (h ▸ List.forall_mem_map.mpr hxs)

theorem all_outlive {depth layer : Nat} (h : Forall₂ Lasts xs ys) (hxs : ∀ x ∈ xs, Exec.outlives depth layer x = true) :
    ∀ y ∈ ys, Exec.outlives depth layer y = true :=
  forall_tag (P := fun t => t.outlives depth layer = true) (map_tag h) hxs

/-- What has become of some bindings, where others lie above them. -/
theorem all_append {xs ys new old : List Variable} (hxs : Forall₂ Lasts (new ++ old) xs) (hys : Forall₂ Lasts ys old) :
    ∃ new' old', xs = new' ++ old' ∧ new'.map Variable.tag = new.map Variable.tag ∧ Forall₂ Lasts ys old' := by
  have hnew := List.forall₂_take new.length hxs
  have hold := List.forall₂_drop new.length hxs
  rw [List.take_left] at hnew
  rw [List.drop_left] at hold
  exact ⟨_, _, (List.take_append_drop new.length xs).symm, map_tag hnew, all_trans hys hold⟩

end Variable.Lasts

/-- The bindings of one invocation, with `layer` bodies open in it. -/
structure Owned (depth layer : Nat) (own : List Tag) : Prop where
  within : ∀ t ∈ own, t.depth = depth ∧ t.layer ≤ layer
  sorted : own.Pairwise fun a b => b.layer ≤ a.layer

/-- The bindings of each invocation lie together, those of the outermost one last. -/
def Scoped : List CallFrame → List Tag → Prop
  | [], tags => tags = []
  | f :: fs, tags =>
    ∃ own rest, tags = own ++ rest ∧ Owned (fs.length + 1) f.layer own ∧ Scoped fs rest

def Machine.Scoped (m : Machine) : Prop := BlockEngine.Scoped m.exec.calls m.exec.tags

theorem Owned.nil (depth layer : Nat) : Owned depth layer [] :=
  ⟨fun _ h => absurd h List.not_mem_nil, .nil⟩

theorem Owned.append {depth layer : Nat} {new own : List Tag} (h : Owned depth layer own)
    (hn : ∀ t ∈ new, t.depth = depth ∧ t.layer = layer) : Owned depth layer (new ++ own) := by
  refine ⟨fun t ht => ?_, ?_⟩
  · rcases List.mem_append.mp ht with ht | ht
    · exact ⟨(hn t ht).1, Nat.le_of_eq (hn t ht).2⟩
    · exact h.within t ht
  · refine List.pairwise_append.mpr ⟨?_, h.sorted, fun a ha b hb => ?_⟩
    · refine List.pairwise_of_forall_mem_list fun a ha b hb => ?_
      exact Nat.le_of_eq ((hn b hb).2.trans (hn a ha).2.symm)
    · rw [(hn a ha).2]
      exact (h.within b hb).2

theorem Scoped.depth_le {fs : List CallFrame} {tags : List Tag} (h : Scoped fs tags) :
    ∀ t ∈ tags, t.depth ≤ fs.length := by
  induction fs generalizing tags with
  | nil => intro t ht; rw [show tags = [] from h] at ht; cases ht
  | cons f fs ih =>
    obtain ⟨own, rest, rfl, ho, hr⟩ := h
    intro t ht
    rcases List.mem_append.mp ht with ht | ht
    · exact Nat.le_of_eq (ho.within t ht).1
    · exact Nat.le_succ_of_le (ih hr t ht)

/-- Dropping from the front stops before what is not to be dropped. -/
theorem dropWhile_append_false {α : Type} {p : α → Bool} {xs ys : List α} (h : ∀ y ∈ ys, p y = false) :
    (xs ++ ys).dropWhile p = xs.dropWhile p ++ ys := by
  rw [List.dropWhile_append]
  split
  · rename_i hnil
    rw [List.isEmpty_iff.mp hnil, List.nil_append]
    cases ys with
    | nil => rfl
    | cons y ys => exact List.dropWhile_cons_of_neg (by simp [h y List.mem_cons_self])
  · rfl

/-- Closing an invocation's bodies down to a layer drops exactly the bindings of the bodies closed. -/
theorem Owned.dropWhile {depth layer : Nat} {own : List Tag} (ho : Owned depth layer own) (floor : Nat) :
    ∀ t ∈ own.dropWhile fun t => !t.outlives depth floor, t.layer < floor := by
  induction own with
  | nil => nofun
  | cons t ts ih =>
    have hts : Owned depth layer ts :=
      ⟨fun u hu => ho.within u (List.mem_cons_of_mem _ hu), (List.pairwise_cons.mp ho.sorted).2⟩
    have hd : t.depth = depth := (ho.within t List.mem_cons_self).1
    by_cases hl : t.layer < floor
    · rw [List.dropWhile_cons_of_neg (by simp [Tag.outlives, hl, hd])]
      refine List.forall_mem_cons.mpr ⟨hl, fun u hu => ?_⟩
      exact Nat.lt_of_le_of_lt ((List.pairwise_cons.mp ho.sorted).1 u hu) hl
    · rw [List.dropWhile_cons_of_pos (by simp [Tag.outlives, hd, hl])]
      exact ih hts

theorem Owned.of_suffix {depth layer l : Nat} {own kept : List Tag} (ho : Owned depth layer own)
    (hk : kept <:+ own) (hl : ∀ t ∈ kept, t.layer ≤ l) : Owned depth l kept :=
  ⟨fun t ht => ⟨(ho.within t (hk.subset ht)).1, hl t ht⟩, ho.sorted.sublist hk.sublist⟩

/-! ## Work inside an invocation -/

/-- The same frames, up to the result of the innermost one. -/
inductive SameFrames : List CallFrame → List CallFrame → Prop
  | nil : SameFrames [] []
  | cons (f : CallFrame) (fs : List CallFrame) (r : Option Value) :
      SameFrames (f :: fs) ({ f with result := r } :: fs)

theorem SameFrames.refl (fs : List CallFrame) : SameFrames fs fs := by
  cases fs with
  | nil => exact .nil
  | cons f fs => exact .cons f fs f.result

theorem SameFrames.trans {a b c : List CallFrame} (h : SameFrames a b) (h' : SameFrames b c) :
    SameFrames a c := by
  cases h with
  | nil => exact h'
  | cons f fs r =>
    cases h' with
    | cons _ _ r' => exact .cons f fs r'

theorem SameFrames.length_eq {a b : List CallFrame} (h : SameFrames a b) : b.length = a.length := by
  cases h <;> rfl

/-- What work inside the innermost invocation leaves: the program, the frames up to a result, and
    the bindings under new ones of the innermost open body. -/
structure Machine.Carries (m k : Machine) : Prop where
  program : k.program = m.program
  limits : k.exec.limits = m.exec.limits
  frames : SameFrames m.exec.calls k.exec.calls
  bindings : ∃ new old, k.exec.bindings = new ++ old ∧ Forall₂ Variable.Lasts m.exec.bindings old ∧
    ∀ x ∈ new, x.depth = m.exec.calls.length ∧ x.layer = m.exec.layer

namespace Machine.Carries

variable {m k l : Machine}

theorem tags (h : m.Carries k) : ∃ new, k.exec.tags = new ++ m.exec.tags ∧
    ∀ t ∈ new, t.depth = m.exec.calls.length ∧ t.layer = m.exec.layer := by
  obtain ⟨new, old, he, hold, hnew⟩ := h.bindings
  refine ⟨new.map Variable.tag, ?_, List.forall_mem_map.mpr hnew⟩
  rw [Exec.tags, he, List.map_append, Variable.Lasts.map_tag hold]
  rfl

theorem layer_eq (h : m.Carries k) : k.exec.layer = m.exec.layer := by
  have hf := h.frames
  unfold Exec.layer
  generalize m.exec.calls = a at hf
  generalize k.exec.calls = b at hf
  cases hf <;> rfl

theorem of_eq (hp : k.program = m.program) (hl : k.exec.limits = m.exec.limits)
    (hc : SameFrames m.exec.calls k.exec.calls) (hb : k.exec.bindings = m.exec.bindings) : m.Carries k :=
  ⟨hp, hl, hc, [], _, hb, Variable.Lasts.all_refl _, nofun⟩

theorem refl (m : Machine) : m.Carries m := of_eq rfl rfl (.refl _) rfl

theorem trans (h : m.Carries k) (h' : k.Carries l) : m.Carries l := by
  obtain ⟨new, old, he, hold, hn⟩ := h.bindings
  obtain ⟨new', old', he', hold', hn'⟩ := h'.bindings
  rw [he] at hold'
  obtain ⟨mid, rest, rfl, hmid, hrest⟩ := Variable.Lasts.all_append hold' hold
  refine ⟨h'.program.trans h.program, h'.limits.trans h.limits, h.frames.trans h'.frames,
    new' ++ mid, rest, ?_, hrest, fun x hx => ?_⟩
  · rw [he', List.append_assoc]
  · rcases List.mem_append.mp hx with hx | hx
    · exact ⟨(hn' x hx).1.trans h.frames.length_eq, (hn' x hx).2.trans h.layer_eq⟩
    · exact Variable.Lasts.forall_tag (P := fun t => t.depth = m.exec.calls.length ∧ t.layer = m.exec.layer) hmid hn x hx

theorem toScoped (h : m.Carries k) (hc : m.exec.calls ≠ []) (hs : m.Scoped) : k.Scoped := by
  obtain ⟨new, he, hn⟩ := h.tags
  have hf := h.frames
  unfold Machine.Scoped at hs ⊢
  rw [he]
  unfold Exec.layer at hn
  generalize m.exec.calls = a at hf hs hn hc
  generalize k.exec.calls = b at hf
  cases hf with
  | nil => exact absurd rfl hc
  | cons f fs r =>
    obtain ⟨own, rest, ht, ho, hr⟩ := hs
    exact ⟨new ++ own, rest, by rw [ht, List.append_assoc], ho.append hn, hr⟩

theorem calls_ne (h : m.Carries k) (hc : m.exec.calls ≠ []) : k.exec.calls ≠ [] := by
  have := h.frames.length_eq
  intro e
  rw [e] at this
  exact hc (List.eq_nil_of_length_eq_zero this.symm)

end Machine.Carries

/-- What an invocation leaves. -/
structure Machine.Restores (m k : Machine) : Prop where
  program : k.program = m.program
  limits : k.exec.limits = m.exec.limits
  operands : k.exec.operands = m.exec.operands
  calls : k.exec.calls = m.exec.calls
  eval : k.exec.eval = m.exec.eval
  bindings : Forall₂ Variable.Lasts m.exec.bindings k.exec.bindings

theorem Machine.Restores.tags {m k : Machine} (h : m.Restores k) : k.exec.tags = m.exec.tags :=
  Variable.Lasts.map_tag h.bindings

theorem Machine.Restores.carries {m k : Machine} (h : m.Restores k) : m.Carries k :=
  ⟨h.program, h.limits, h.calls ▸ .refl _, [], _, rfl, h.bindings, nofun⟩

theorem Machine.Restores.toScoped {m k : Machine} (h : m.Restores k) (hs : m.Scoped) : k.Scoped := by
  unfold Machine.Scoped
  rw [h.calls, h.tags]
  exact hs

theorem Machine.MayResume.restores {m k : Machine} (h : m.MayResume k) : m.Restores k := by
  obtain ⟨hp, he⟩ := h
  constructor
  · exact hp
  all_goals rw [he]
  exact Variable.Lasts.all_refl _

/-! ## Natives -/

namespace Work

/-- Every invocation leaves operands, frames and tags as they were, and is scoped where it stops. -/
def Restoring (invoke : Invoker) : Prop :=
  ∀ c args m, m.Scoped → (invoke c args).Meets (fun _ k => m.Restores k) (.all Machine.Scoped) m

/-- Work inside the innermost invocation, with more to be said of the machine it leaves. -/
def Stays {α : Type} (R : Machine → Machine → Prop) (w : Work α) : Prop :=
  ∀ m, m.exec.calls ≠ [] → m.Scoped →
    w.Meets (fun _ k => m.Carries k ∧ R m k) (.all Machine.Scoped) m

theorem stays_bind {α β : Type} {R : Machine → Machine → Prop} (hR : ∀ {a b c}, R a b → R b c → R a c)
    {w : Work α} {f : α → Work β} (hw : w.Stays R) (hf : ∀ a, (f a).Stays R) : (w >>= f).Stays R := by
  intro m hc hs
  rw [meets_bind]
  refine (hw m hc hs).weaken fun a k hk => ?_
  refine (hf a k (hk.1.calls_ne hc) (hk.1.toScoped hc hs)).weaken fun b l hl => ?_
  exact ⟨hk.1.trans hl.1, hR hk.2 hl.2⟩

def Tame {α : Type} (w : Work α) : Prop := w.Stays fun m k => k.exec.operands = m.exec.operands

theorem tame_bind {α β : Type} {w : Work α} {f : α → Work β} (hw : w.Tame) (hf : ∀ a, (f a).Tame) :
    (w >>= f).Tame := stays_bind (fun h h' => h'.trans h) hw hf

/-- Work that changes neither program nor the stacks that matter is tame. -/
theorem tame_of_same {α : Type} {w : Work α}
    (h : ∀ m, ∃ a k, w m = .done a k ∧ k.program = m.program ∧ k.exec.limits = m.exec.limits ∧
      SameFrames m.exec.calls k.exec.calls ∧ k.exec.bindings = m.exec.bindings ∧
      k.exec.operands = m.exec.operands) : w.Tame := by
  intro m hc hs
  obtain ⟨a, k, hw, hp, hl, hf, hb, ho⟩ := h m
  unfold Meets
  rw [hw]
  exact ⟨.of_eq hp hl hf hb, ho⟩

theorem skipBody_tame : skipBody.Tame := by
  intro m hc hs
  unfold Meets skipBody
  split
  · exact hs
  · split
    · exact ⟨.of_eq rfl rfl (.refl _) rfl, rfl⟩
    · exact hs

theorem finish_tame (v : Value) : (finish v).Tame := by
  refine tame_of_same fun m => ?_
  unfold finish Work.modify
  dsimp only
  split
  · exact ⟨(), _, rfl, rfl, rfl, .refl _, rfl, rfl⟩
  · rename_i f fs hm
    exact ⟨(), _, rfl, rfl, rfl, hm ▸ .cons f fs _, rfl, rfl⟩

theorem declare_tame (name : Text) (v : Value) : (declare name v).Tame := by
  intro m hc hs
  simp only [declare, meets_bind, meets_read, meets_pushVariable]
  split
  · refine ⟨⟨rfl, rfl, .refl _, [_], m.exec.bindings, rfl, Variable.Lasts.all_refl _, fun x hx => ?_⟩, trivial⟩
    rw [List.mem_singleton.mp hx]
    exact ⟨rfl, rfl⟩
  · exact hs

theorem assign_tame (name : Text) (v : Value) : (assign name v).Tame := by
  intro m hc hs
  unfold Meets assign
  split
  · exact ⟨.refl m, rfl⟩
  · exact ⟨⟨rfl, rfl, .refl _, [], _, rfl, Variable.Lasts.all_modify _ _ v, nofun⟩, rfl⟩

theorem fetch_tame (name : Text) : (fetch name).Tame := by
  intro m hc hs
  simp only [fetch, meets_bind, meets_read]
  split
  · exact ⟨.refl m, rfl⟩
  · exact ⟨.of_eq rfl rfl (.refl _) rfl, rfl⟩

theorem argument_tame (i : Int) : (argument i).Tame := by
  intro m hc hs
  simp only [argument, meets_bind, meets_read]
  split
  · exact ⟨.refl m, rfl⟩
  · split
    · exact ⟨.of_eq rfl rfl (.refl _) rfl, rfl⟩
    · exact ⟨.refl m, rfl⟩

theorem pushData_tame (v : Value) : (pushControl (.data v)).Tame := by
  intro m hc hs
  rw [meets_pushControl]
  split
  · exact ⟨.of_eq rfl rfl (.refl _) rfl, rfl⟩
  · exact hs

theorem popData_tame : popData.Tame := by
  intro m hc hs
  unfold Meets popData
  split
  · exact ⟨.of_eq rfl rfl (.refl _) rfl, rfl⟩
  · exact hs

theorem fail_tame (e : Error) : (fail e).Tame :=
  tame_of_same fun _ => ⟨(), _, rfl, rfl, rfl, .refl _, rfl, rfl⟩

theorem call_tame {invoke : Invoker} (hi : Restoring invoke) (c : Option ChainId) (args : List Value) :
    (call invoke c args).Tame := by
  cases c with
  | none => exact tame_bind (fail_tame _) fun _ => tame_of_same fun _ => ⟨_, _, rfl, rfl, rfl, .refl _, rfl, rfl⟩
  | some c =>
    refine tame_bind (tame_of_same fun _ => ⟨_, _, rfl, rfl, rfl, .refl _, rfl, rfl⟩) fun bound => ?_
    refine tame_bind (fun m hc hs => (hi c bound m hs).weaken fun r k h => ⟨h.carries, h.operands⟩) fun r => ?_
    refine tame_bind (tame_of_same fun _ => ⟨_, _, rfl, rfl, rfl, .refl _, rfl, rfl⟩) fun _ => ?_
    cases r with
    | ok v => exact tame_of_same fun _ => ⟨_, _, rfl, rfl, rfl, .refl _, rfl, rfl⟩
    | error e =>
      exact tame_bind (fail_tame e) fun _ => tame_of_same fun _ => ⟨_, _, rfl, rfl, rfl, .refl _, rfl, rfl⟩

theorem print_tame (line : Text) : (print line).Tame := by
  refine tame_of_same fun m => ?_
  unfold print
  split <;> exact ⟨_, _, rfl, rfl, rfl, .refl _, rfl, rfl⟩

theorem cancelRun_tame (cause : CancelCause) : (cancelRun cause).Tame := by
  refine tame_of_same fun m => ?_
  unfold cancelRun mapExec Work.modify
  dsimp only
  split <;> exact ⟨(), _, rfl, rfl, rfl, .refl _, rfl, rfl⟩

theorem pause_tame : pause.Tame := by
  intro m hc hs
  refine ⟨hs, fun k hk => ?_⟩
  exact ⟨hk.restores.carries, hk.restores.operands⟩

/-- Whatever a native asks for is tame. -/
theorem answer_tame {invoke : Invoker} (hi : Restoring invoke) (r : Request) : (answer invoke r).Tame := by
  cases r with
  | skipBody => exact skipBody_tame
  | finish v => exact finish_tame v
  | declare name v => exact declare_tame name v
  | assign name v => exact assign_tame name v
  | fetch name => exact fetch_tame name
  | pushData v => exact pushData_tame v
  | popData => exact popData_tame
  | argument i => exact argument_tame i
  | call c args => exact call_tame hi c args
  | print line => exact print_tame line
  | cancelRun cause => exact cancelRun_tame cause
  | pause => exact pause_tame
  | _ => exact tame_of_same fun _ => ⟨_, _, rfl, rfl, rfl, .refl _, rfl, rfl⟩

theorem perform_tame {α : Type} {invoke : Invoker} (hi : Restoring invoke) (p : Proc α) :
    (perform invoke p).Tame := by
  induction p with
  | done a => exact tame_of_same fun _ => ⟨_, _, rfl, rfl, rfl, .refl _, rfl, rfl⟩
  | crash f => exact fun m _ hs => hs
  | ask r go ih => exact tame_bind (answer_tame hi r) ih

/-! ## Evaluation -/

def Growing {α : Type} (w : Work α) : Prop :=
  w.Stays fun m k => k.exec.eval = m.exec.eval ∧ m.exec.operands <:+ k.exec.operands

def Settled {α : Type} (w : Work α) : Prop :=
  w.Stays fun m k => k.exec.eval = m.exec.eval ∧ k.exec.operands = m.exec.operands

theorem growing_bind {α β : Type} {w : Work α} {f : α → Work β} (hw : w.Growing)
    (hf : ∀ a, (f a).Growing) : (w >>= f).Growing :=
  stays_bind (fun h h' => ⟨h'.1.trans h.1, h.2.trans h'.2⟩) hw hf

theorem Settled.growing {α : Type} {w : Work α} (h : w.Settled) : w.Growing := fun m hc hs =>
  (h m hc hs).weaken fun _ _ hk => ⟨hk.1, hk.2.1, hk.2.2 ▸ List.suffix_refl _⟩

theorem settled_read {α : Type} (f : Machine → α) : (read f).Settled :=
  fun m _ _ => ⟨.refl m, rfl, rfl⟩

theorem settled_pure {α : Type} (a : α) : (Pure.pure a : Work α).Settled :=
  fun m _ _ => ⟨.refl m, rfl, rfl⟩

theorem settled_release (v : Value) : (release v).Settled :=
  fun _ _ _ => ⟨.of_eq rfl rfl (.refl _) rfl, rfl, rfl⟩

theorem settled_releasePrior (prior : Option Value) : (releasePrior prior).Settled := by
  cases prior with
  | none => exact settled_pure ()
  | some v => exact settled_release v

theorem pushOperand_growing (v : Value) : (pushOperand v).Growing := by
  intro m hc hs
  rw [meets_pushOperand]
  split
  · exact ⟨.of_eq rfl rfl (.refl _) rfl, rfl, List.suffix_cons v _⟩
  · exact hs

theorem pushAll_growing (vs : List Value) : (pushAll vs).Growing := by
  induction vs with
  | nil => exact (settled_pure ()).growing
  | cons v vs ih => exact growing_bind (pushOperand_growing v) fun _ => ih

theorem pushHidden_growing (d : Definition) (index : Int) (mark : Marker) (prior : Option Value) :
    (pushHidden d index mark prior).Growing := by
  rw [pushHidden_eq]
  split
  · exact growing_bind (settled_releasePrior prior).growing fun _ => (settled_pure _).growing
  · exact growing_bind (pushAll_growing _) fun _ => (settled_pure _).growing

def Settling (eval : Evaluator) : Prop :=
  ∀ b index mark bare prior, (eval b index mark bare prior).Settled

theorem pushSlot_growing {eval : Evaluator} (he : Settling eval) (d : Definition) (index : Int) (s : Slot) :
    (pushSlot eval d index s).Growing := by
  unfold pushSlot
  split
  · exact growing_bind (pushOperand_growing _) fun _ => (settled_pure _).growing
  · exact growing_bind (pushOperand_growing _) fun _ => (settled_pure _).growing
  · split
    · exact fun _ _ hs => hs
    · refine growing_bind (he _ _ _ _ _).growing fun r => ?_
      split
      · exact (settled_pure _).growing
      · exact growing_bind (pushOperand_growing _) fun _ => (settled_pure _).growing
  · exact (settled_pure _).growing
  · exact (settled_pure _).growing

theorem pushSlots_growing {eval : Evaluator} (he : Settling eval) (d : Definition) (b : BlockId) (index : Int)
    (is : List Nat) : (pushSlots eval d b index is).Growing := by
  induction is with
  | nil => exact (settled_pure _).growing
  | cons i is ih =>
    refine growing_bind (settled_read _).growing fun s => ?_
    split
    · exact ih
    · refine growing_bind (pushSlot_growing he d index _) fun r => ?_
      split
      · exact (settled_pure _).growing
      · exact ih

theorem pushDeclared_growing {eval : Evaluator} (he : Settling eval) (d : Definition) (b : BlockId) (index : Int)
    (mark : Marker) (bare : Bool) : (pushDeclared eval d b index mark bare).Growing := by
  unfold pushDeclared
  split
  · exact (settled_pure _).growing
  · exact growing_bind (settled_read _).growing fun n => pushSlots_growing he d b index _

theorem pushOperands_growing {eval : Evaluator} (he : Settling eval) (d : Definition) (b : BlockId)
    (index : Int) (mark : Marker) (bare : Bool) (prior : Option Value) :
    (pushOperands eval d b index mark bare prior).Growing := by
  refine growing_bind (pushHidden_growing d index mark prior) fun r => ?_
  split
  · exact (settled_pure _).growing
  · exact pushDeclared_growing he d b index mark bare

/-- Dropping what was pushed on some operands brings these back. -/
theorem truncateOperands_settles {m k : Machine} (hk : m.Carries k) (hv : k.exec.eval = m.exec.eval)
    (ho : m.exec.operands <:+ k.exec.operands) :
    (truncateOperands m.exec.operands.length).Meets
      (fun _ l => m.Carries l ∧ l.exec.eval = m.exec.eval ∧ l.exec.operands = m.exec.operands)
      (.all Machine.Scoped) k := by
  obtain ⟨vs, hvs⟩ := ho
  unfold Meets
  rw [truncateOperands_append hvs.symm]
  exact ⟨hk.trans (.of_eq rfl rfl (.refl _) rfl), hv, rfl⟩

theorem callNative_settles {invoke : Invoker} (hi : Restoring invoke) (native : Native) (e : EvalState)
    (mark : Marker) {m k : Machine} (hc : m.exec.calls ≠ []) (hs : m.Scoped) (hk : m.Carries k)
    (hv : k.exec.eval = m.exec.eval) (ho : m.exec.operands <:+ k.exec.operands) :
    (callNative invoke native e mark m.exec.operands.length).Meets
      (fun _ l => m.Carries l ∧ l.exec.eval = m.exec.eval ∧ l.exec.operands = m.exec.operands)
      (.all Machine.Scoped) k := by
  simp only [callNative, window, meets_bind, meets_read, meets_modify, meets_mapExec, meets_pure]
  refine Meets.weaken (perform_tame hi _ _ ?_ ?_) fun v l hl => ?_
  · exact hk.calls_ne hc
  · exact hk.toScoped hc hs
  -- The native's own evaluation is put away before its operands are dropped.
  have hkl : k.Carries { l with exec.eval := k.exec.eval } :=
    ⟨hl.1.program, hl.1.limits, hl.1.frames, hl.1.bindings⟩
  exact truncateOperands_settles (hk.trans hkl) hv (hl.2 ▸ ho)

theorem evaluateWith_settling {eval : Evaluator} {invoke : Invoker} (he : Settling eval)
    (hi : Restoring invoke) : Settling (evaluateWith eval invoke) := by
  intro b index mark bare prior m hc hs
  simp only [evaluateWith, kindOf, meets_bind, meets_read]
  split
  · simp only [meets_bind, meets_pure]
    exact settled_releasePrior prior m hc hs
  · simp only [meets_bind, meets_read]
    refine (pushOperands_growing he _ b index mark bare prior m hc hs).weaken fun r k hk => ?_
    obtain ⟨hk, hv, ho⟩ := hk
    split
    · simp only [meets_bind, meets_pure]
      exact truncateOperands_settles hk hv ho
    · rw [meets_bind]
      refine (callNative_settles hi _ _ mark hc hs hk hv ho).weaken fun r l hl => ?_
      split
      · simp only [meets_bind, meets_release, meets_pure]
        exact ⟨hl.1.trans (.of_eq rfl rfl (.refl _) rfl), hl.2⟩
      · exact hl

end Work

end BlockEngine
