/-
  BlockEngine.Proofs.Structured.Discipline — standard blocks keep to the discipline of the bracket tree.

  The structured interpreter stays in the invocation whose chain it runs, and comes out of every body
  with as many open as before, whatever the natives do. In a tidy region it finds the control stack
  between blocks as it was before the group they are in, and under what a repetition keeps while it
  is repeated; so what it watches for never happens there. Both are shown at once, the second where
  it is asked for (`strict`).

  Proved:
  - `structured_keeps`: structured evaluations and invocations restore what the walk restores, for all
    natives, and in a tidy region of standard blocks break down only where a stack is full.
-/

import BlockEngine.Proofs.Library.Walk
import BlockEngine.Proofs.Structured.Interpreter

namespace BlockEngine

/-- Work stops on scoped machines. If asked for, it breaks down only where a stack is full, and is
    never paused. -/
def Exits.strictly (strict : Prop) : Exits :=
  ⟨fun f m => m.Scoped ∧ (strict → f.IsOverflow), Machine.Scoped, fun m => m.Scoped ∧ ¬ strict⟩

/-- The invocation goes on with so many bodies open and, if asked for, with these frames on top of the
    control stack that it found. -/
structure Level (strict : Prop) (m₀ : Machine) (args : List Value) (layer : Nat) (L : List ControlFrame) (m : Machine) :
    Prop where
  underway : m₀.Underway args m
  layer : m.exec.layer = layer
  control : strict → m.exec.control = L ++ m₀.exec.control

/-- The invocation is to end. -/
structure Leaving (strict : Prop) (m₀ : Machine) (args : List Value) (m : Machine) : Prop where
  underway : m₀.Underway args m
  control : strict → ∃ L, m.exec.control = L ++ m₀.exec.control

theorem Level.leaving {strict : Prop} {m₀ m : Machine} {args : List Value} {layer : Nat} {L : List ControlFrame}
    (h : Level strict m₀ args layer L m) : Leaving strict m₀ args m := ⟨h.underway, fun hx => ⟨L, h.control hx⟩⟩

/-- Freeing a value leaves the level. -/
theorem Level.released {strict : Prop} {m₀ m : Machine} {args : List Value} {layer : Nat} {L : List ControlFrame}
    (h : Level strict m₀ args layer L m) (v : Value) :
    Level strict m₀ args layer L { m with storage := m.storage.release v } :=
  ⟨h.underway.of_eq rfl rfl, h.layer, h.control⟩

theorem keepsAtMostOne_frames {vs : List Value} (h : vs.length ≤ 1) (K : List ControlFrame) :
    keepsAtMostOne K (framesOf vs ++ K) = true := by
  match vs, h with
  | [], _ =>
    show keepsAtMostOne K K = true
    unfold keepsAtMostOne
    split <;> simp
  | [v], _ => simp [keepsAtMostOne, framesOf]

/-- A control block is entered again, bare where it keeps a value. -/
theorem Definition.Entered.of_again {d : Definition} {i : Nat} {bare : Bool} {kept : List Value}
    (ht : d.type = .control) (hk : kept.length = if bare then 1 else 0)
    (hr : bare = true → d.repeats (.ofBool true) = true) : d.Entered i False .opening bare none kept := by
  cases bare with
  | false =>
    obtain rfl := List.eq_nil_of_length_eq_zero hk
    exact .begins ht (Int.natCast_nonneg _)
  | true =>
    obtain ⟨x, rfl⟩ := List.length_eq_one_iff.mp hk
    exact .resumes x (hr rfl) (Int.natCast_nonneg _)

/-- A block keeps one value more at most than it has kept before. -/
theorem Definition.Leaves.kept {d : Definition} {index : Int} {before kept : List Value} {v : Value} {jump : Option Nat}
    (h : d.Leaves index before v ⟨kept, jump⟩ .opening) (K : List ControlFrame) :
    keepsAtMostOne (framesOf before ++ K) (framesOf kept ++ K) = true := by
  obtain ⟨new, hnew⟩ := h.2.2
  have hlen := h.2.1
  dsimp only at hnew hlen
  have hone : new.length ≤ 1 := by
    have := congrArg List.length hnew
    rw [List.length_append] at this
    split at hlen <;> omega
  have hframes : framesOf (new ++ before) ++ K = framesOf new ++ (framesOf before ++ K) := by simp [framesOf]
  rw [← hnew, hframes]
  exact keepsAtMostOne_frames hone _

/-- A region in which nothing runs. -/
def Region.none (p : Program) : Region p where
  chains _ := False
  blocks _ := False
  listed h := h.elim
  placed h := h.elim
  nested h := h.elim
  called h := h.elim

namespace Structured

open Work

section

variable (strict : Prop) (m₀ : Machine) (args : List Value) (layer : Nat) (L : List ControlFrame)

/-- How a run of blocks comes out. -/
def Flowed : Flow → Machine → Prop
  | .on => Level strict m₀ args layer L
  | .stop _ => Leaving strict m₀ args

/-- How a branch of a block comes out. -/
def Passed (own : Bool) (b : BlockId) : Pass → Machine → Prop
  | .through _ => Level strict m₀ args layer L
  | .again bare => fun m => own = true ∧ ∃ kept, Level strict m₀ args layer (framesOf kept ++ L) m ∧
      (strict → (kept.length = if bare then 1 else 0) ∧
        (bare = true → (m₀.program.kindOf b).repeats (.ofBool true) = true))
  | .stop _ => Leaving strict m₀ args

/-- How a block comes out that is entered and has kept some values before. -/
def Visited (i : Nat) (mark : Marker) (before : List Value) (b : BlockId) :
    Except (Option Error) (Value × Asked) → Machine → Prop
  | .error _ => Leaving strict m₀ args
  | .ok (v, asked) => fun m => ∃ kept, Level strict m₀ args layer (framesOf kept ++ L) m ∧
      (strict → (m₀.program.kindOf b).Leaves i before v ⟨kept, asked.jump⟩ mark)

end

/-- A block that opens a body, in a group that lies on these frames. -/
structure Opener (strict : Prop) {m₀ : Machine} (R : Region m₀.program) (L outside : List ControlFrame) (own : Bool)
    (b : BlockId) : Prop where
  block : strict → R.blocks b
  opens : (m₀.program.kindOf b).type.opens = true
  owns : own = true ↔ (m₀.program.kindOf b).type = .control
  outside : strict → outside = L ++ m₀.exec.control

variable {strict : Prop} {m₀ : Machine} {R : Region m₀.program} {args : List Value} {layer : Nat}
  {L : List ControlFrame} {m : Machine} {eval : Evaluator} {breach : Fault}

theorem meets_unlessCancelled {α : Type} {stop : Option Error → α} {w : Work α} {Q : α → Machine → Prop} {E : Exits}
    (hs : ∀ e, Q (stop e) m) (hw : w.Meets Q E m) : (unlessCancelled stop w).Meets Q E m := by
  rw [unlessCancelled, meets_bind, meets_read]
  split
  · exact hs _
  · exact hw

theorem meets_watch {Q : Unit → Machine → Prop} {ok : Bool} (hs : m.Scoped) (hx : strict → ok = true)
    (hQ : ok = true → Q () m) : (watch breach ok).Meets Q (.strictly strict) m := by
  cases ok with
  | true => exact hQ rfl
  | false => exact ⟨hs, fun h => (by cases hx h)⟩

section

variable (hse : Settling eval) (hwell : strict → EvaluatesWell R False False False eval) (hs : m₀.Scoped)
include hse hwell hs

theorem visit_levels {b : BlockId} {i : Nat} {mark : Marker} {bare : Bool} {prior : Option Value} (kept : List Value)
    (hb : strict → R.blocks b) (hent : strict → (m₀.program.kindOf b).Entered i False mark bare prior kept)
    (h : Level strict m₀ args layer (framesOf kept ++ L) m) :
    (visit eval (m₀.exec.calls.length + 1) b i mark bare prior).Meets (Visited strict m₀ args layer L i mark kept b)
      (.strictly strict) m := by
  have hsettles := hse b i mark bare prior m h.underway.calls_ne (h.underway.toScoped hs)
  have heval : (eval b i mark bare prior).Meets
      (fun r k => ∃ kept', Level strict m₀ args layer (framesOf kept' ++ L) k ∧
        (strict → ∀ v asked, r = .ok (v, asked) → (m₀.program.kindOf b).Leaves i kept v ⟨kept', asked.jump⟩ mark))
      (.strictly strict) m := by
    by_cases hx : strict
    · have hready : m.Ready m₀.program False :=
        ⟨h.underway.calls_ne, h.underway.toScoped hs, h.underway.program, False.elim⟩
      have hctl : m.exec.control = framesOf kept ++ (L ++ m₀.exec.control) := by
        rw [h.control hx, List.append_assoc]
      refine (Outcome.Meets.both (hwell hx (hb hx) (hent hx) (fun _ _ hf => hf.elim) hready hctl) hsettles).mono
        (fun r k hk => ?_) (fun f k hf => ⟨hf.2, fun _ => hf.1.resolve_right id⟩) (fun k hk => hk.2)
        fun k hk => hk.1.elim
      obtain ⟨hev, hcar, hv, ho⟩ := hk
      obtain ⟨kept', strays, hc, hstrays, hok⟩ := hev.control
      obtain rfl : strays = [] := by_contra fun hne => (hstrays hne).1
      refine ⟨kept', ⟨h.underway.carries hcar hv ho, hcar.layer_eq.trans h.layer, fun _ => ?_⟩,
        fun _ v asked hr => (hok v asked hr).2⟩
      rw [hc, List.append_assoc]
      rfl
    · refine hsettles.mono (fun r k hk => ?_) (fun f k hf => ⟨hf, fun h => absurd h hx⟩) (fun k hk => hk)
        fun k hk => ⟨hk, hx⟩
      exact ⟨[], ⟨h.underway.carries hk.1 hk.2.1 hk.2.2, hk.1.layer_eq.trans h.layer, fun h => absurd h hx⟩,
        fun h => absurd h hx⟩
  rw [visit, meets_bind]
  refine heval.weaken fun r k hk => ?_
  obtain ⟨kept', hk, hleaves⟩ := hk
  cases r with
  | error e => exact hk.leaving
  | ok va =>
    obtain ⟨v, asked⟩ := va
    dsimp only
    rw [meets_bind]
    refine meets_isFinished fun finished => ?_
    cases finished with
    | true => exact (hk.released v).leaving
    | false => exact ⟨kept', hk, fun hx => hleaves hx v asked rfl⟩

theorem single_levels {b : BlockId} {i : Nat} (hb : strict → R.blocks b)
    (ht : (m₀.program.kindOf b).type.opens = false) (h : Level strict m₀ args layer L m) :
    (single eval breach (m₀.exec.calls.length + 1) b i).Meets (Flowed strict m₀ args layer L) (.strictly strict) m := by
  refine meets_unlessCancelled (fun _ => h.leaving) ?_
  rw [meets_bind, meets_read, meets_bind]
  refine (visit_levels hse hwell hs [] hb (fun _ => .plain ht) h).weaken fun r k hk => ?_
  cases r with
  | error e => exact hk
  | ok va =>
    obtain ⟨v, asked⟩ := va
    obtain ⟨kept, hk, hleaves⟩ := hk
    simp only [meets_bind, meets_read, meets_release, meets_pure]
    have hnone : strict → kept = [] := fun hx => by
      have hlen := (hleaves hx).2.1
      rw [Definition.repeats_of_plain ht] at hlen
      exact List.eq_nil_of_length_eq_zero hlen
    have hctl : strict → k.exec.control = L ++ m₀.exec.control := fun hx => by
      rw [hk.control hx, hnone hx]
      rfl
    refine meets_watch (hk.underway.toScoped hs) (fun hx => ?_) fun _ => ?_
    · have hj : asked.jump = none := (hleaves hx).1
      simp [hj, hctl hx, h.control hx]
    · exact Level.released ⟨hk.underway, hk.layer, hctl⟩ v

theorem conclude_levels {own : Bool} {outside : List ControlFrame} {b : BlockId} {i : Nat} {v : Value}
    {kept : List Value} (hb : Opener strict R L outside own b)
    (hkept : strict → kept.length = if (m₀.program.kindOf b).repeats v then 1 else 0)
    (h : Level strict m₀ args layer (framesOf kept ++ L) m) :
    (conclude eval breach (m₀.exec.calls.length + 1) own outside b i v).Meets (Passed strict m₀ args layer L own b)
      (.strictly strict) m := by
  rw [conclude, meets_bind]
  refine (visit_levels hse hwell hs kept hb.block (fun hx => .closes v kept hb.opens (Int.natCast_nonneg _) (hkept hx)) h).weaken
    fun r k hk => ?_
  cases r with
  | error e => exact hk
  | ok va =>
    obtain ⟨w, jump, skip⟩ := va
    obtain ⟨kept', hk, hleaves⟩ := hk
    have hscoped := hk.underway.toScoped hs
    dsimp only
    rw [meets_bind, meets_read]
    cases jump with
    | none =>
      have hctl : strict → k.exec.control = L ++ m₀.exec.control := fun hx => by
        rcases hleaves hx with ⟨-, hnone⟩ | ⟨hj, -⟩
        · rw [hk.control hx, show kept' = [] from hnone]
          rfl
        · cases hj
      dsimp only
      rw [meets_bind]
      refine meets_watch hscoped (fun hx => ?_) fun _ => ?_
      · rw [hctl hx, hb.outside hx, beq_iff_eq]
      · exact ⟨hk.underway, hk.layer, hctl⟩
    | some j =>
      simp only [meets_bind, meets_release, meets_pure]
      refine meets_watch hscoped (fun hx => ?_) fun hok => ?_
      · rcases hleaves hx with ⟨hj, -⟩ | ⟨hj, hctrl, hlen, -⟩
        · cases hj
        · have hji : j = i := by simpa using hj
          have hone : kept'.length ≤ 1 := by
            dsimp only at hlen
            split at hlen <;> omega
          have hkeeps := keepsAtMostOne_frames hone (L ++ m₀.exec.control)
          rw [← List.append_assoc, ← hk.control hx, ← hb.outside hx] at hkeeps
          simp [hb.owns.mpr hctrl, hji, hkeeps]
      · have hown : own = true := by
          cases own with
          | true => rfl
          | false => simp at hok
        refine ⟨hown, kept', hk.released w, fun hx => ?_⟩
        rcases hleaves hx with ⟨hj, -⟩ | ⟨-, -, hlen, hrep, -⟩
        · cases hj
        · exact ⟨hlen, hrep⟩

/-- A body that went well is closed, and its opener is entered again. -/
theorem closing_levels {own : Bool} {outside : List ControlFrame} {b : BlockId} {i : Nat} {v : Value}
    {kept : List Value} (hb : Opener strict R L outside own b)
    (hkept : strict → kept.length = if (m₀.program.kindOf b).repeats v then 1 else 0)
    (h : Level strict m₀ args (layer + 1) (.body i v :: (framesOf kept ++ L)) m) :
    (takeBody (m₀.exec.calls.length + 1) (layer + 1) >>= fun _ =>
      conclude eval breach (m₀.exec.calls.length + 1) own outside b i v).Meets (Passed strict m₀ args layer L own b)
      (.strictly strict) m := by
  rw [meets_bind, meets_takeBody h.underway.calls_length h.underway.calls_ne]
  split
  · rename_i j w rest hctl
    have hclosed := h.underway.closed hs rest
    rw [h.layer] at hclosed
    refine conclude_levels hse hwell hs hb hkept
      ⟨hclosed, h.underway.layer_outOfBody _ _, fun hx => ?_⟩
    have hrest := hctl.symm.trans (h.control hx)
    simp only [List.cons_append, List.cons.injEq] at hrest
    exact hrest.2
  · rename_i w rest hctl
    refine ⟨(h.underway.of_eq (k := { m with exec.control := rest }) rfl rfl).toScoped hs, fun hx => ?_⟩
    cases hctl.symm.trans (h.control hx)
  · rename_i hctl
    refine ⟨h.underway.toScoped hs, fun hx => ?_⟩
    cases hctl.symm.trans (h.control hx)

theorem branch_levels {own : Bool} {outside : List ControlFrame} {b : BlockId} {i : Nat} {bare : Bool}
    {prior : Option Value} (kept : List Value) {body : Work Flow} (hb : Opener strict R L outside own b)
    (hent : strict → (m₀.program.kindOf b).Entered i False .opening bare prior kept)
    (hbody : ∀ {L m}, Level strict m₀ args (layer + 1) L m →
      body.Meets (Flowed strict m₀ args (layer + 1) L) (.strictly strict) m)
    (h : Level strict m₀ args layer (framesOf kept ++ L) m) :
    (branch eval breach (m₀.exec.calls.length + 1) own outside b i bare prior body).Meets
      (Passed strict m₀ args layer L own b) (.strictly strict) m := by
  simp only [branch, meets_bind, meets_read]
  refine (visit_levels hse hwell hs kept hb.block hent h).weaken fun r k hk => ?_
  cases r with
  | error e => exact hk
  | ok va =>
    obtain ⟨v, asked⟩ := va
    obtain ⟨kept', hk, hleaves⟩ := hk
    simp only [meets_bind, meets_read]
    refine meets_watch (hk.underway.toScoped hs) (fun hx => ?_) fun _ => ?_
    · have hkeeps := (hleaves hx).kept (L ++ m₀.exec.control)
      rw [← List.append_assoc, ← List.append_assoc, ← hk.control hx, ← h.control hx] at hkeeps
      obtain ⟨hj, hlen, hsuffix⟩ := hleaves hx
      have hj : asked.jump = none := hj
      cases ho : own with
      | true => simp [hj, hkeeps]
      | false =>
        -- A continuation keeps nothing.
        have hrep : (m₀.program.kindOf b).repeats v = false := Bool.eq_false_iff.mpr fun hr => by
          rw [hb.owns.mpr (Definition.control_of_repeats hr)] at ho
          cases ho
        rw [hrep] at hlen
        have hnone : kept' = [] := List.eq_nil_of_length_eq_zero hlen
        have hbefore : kept = [] := List.suffix_nil.mp (hnone ▸ hsuffix)
        simp [hj, hk.control hx, h.control hx, hnone, hbefore]
    rw [meets_openBody hk.underway.calls_length hk.underway.calls_ne]
    split
    · have hin : Level strict m₀ args (layer + 1) (.body i v :: (framesOf kept' ++ L)) (k.inBody i v) := by
        refine ⟨hk.underway.opened i v, ?_, fun hx => ?_⟩
        · rw [hk.underway.layer_inBody, hk.layer]
        · show .body i v :: k.exec.control = _
          rw [hk.control hx]
          rfl
      have hflow : (if asked.skip = true then (Pure.pure .on : Work Flow) else body).Meets
          (Flowed strict m₀ args (layer + 1) (.body i v :: (framesOf kept' ++ L))) (.strictly strict)
          (k.inBody i v) := by
        split
        · exact hin
        · exact hbody hin
      refine hflow.weaken fun flow l hl => ?_
      cases flow with
      | stop e => exact hl
      | on =>
        refine meets_unlessCancelled (fun _ => hl.leaving) ?_
        rw [hk.layer]
        exact closing_levels hse hwell hs hb (fun hx => (hleaves hx).2.1) hl
    · exact ⟨hk.underway.toScoped hs, fun _ => ⟨_, _, rfl⟩⟩

end

/-- Repeating a branch, whatever it asks for. -/
theorem passes_levels {pass : Nat → Bool → Work Pass} {b : BlockId} (hs : m₀.Scoped)
    (hpass : ∀ {n bare kept m}, Level strict m₀ args layer (framesOf kept ++ L) m →
      (strict → (kept.length = if bare then 1 else 0) ∧
        (bare = true → (m₀.program.kindOf b).repeats (.ofBool true) = true)) →
      (pass n bare).Meets (Passed strict m₀ args layer L true b) (.strictly strict) m)
    (n : Nat) (bare : Bool) (kept : List Value) (h : Level strict m₀ args layer (framesOf kept ++ L) m)
    (hk : strict → (kept.length = if bare then 1 else 0) ∧
      (bare = true → (m₀.program.kindOf b).repeats (.ofBool true) = true)) :
    (passes pass n bare).Meets
      (fun r => match r with
        | .ok _ => Level strict m₀ args layer L
        | .error _ => Leaving strict m₀ args)
      (.strictly strict) m := by
  induction n generalizing bare kept m with
  | zero => exact h.underway.toScoped hs
  | succ n ih =>
    rw [passes, meets_bind]
    refine (hpass h hk).weaken fun r k hk => ?_
    cases r with
    | through v => exact hk
    | stop e => exact hk
    | again bare =>
      obtain ⟨-, kept, hk, hkept⟩ := hk
      exact ih bare kept hk hkept

/-! ## Trees -/

mutual

theorem forest_levels {strict : Prop} {m₀ : Machine} {R : Region m₀.program} {args : List Value} {eval : Evaluator}
    {breach : Fault} (hse : Settling eval) (hwell : strict → EvaluatesWell R False False False eval) (hs : m₀.Scoped)
    (f : Forest) (hb : strict → ∀ b ∈ f.blocks, R.blocks b) (ht : f.Typed fun b => (m₀.program.kindOf b).type)
    (n i : Nat) {layer : Nat} {L : List ControlFrame} {m : Machine} (h : Level strict m₀ args layer L m) :
    (runForest eval breach (m₀.exec.calls.length + 1) n i f).Meets (Flowed strict m₀ args layer L)
      (.strictly strict) m := by
  cases f with
  | nil => exact h
  | leaf b rest =>
    rw [Forest.Typed] at ht
    rw [Forest.blocks] at hb
    rw [runForest, meets_bind]
    refine (single_levels hse hwell hs (fun hx => hb hx b List.mem_cons_self) ht.1.1 h).weaken fun flow k hk => ?_
    cases flow with
    | stop e => exact hk
    | on => exact forest_levels hse hwell hs rest (fun hx x hm => hb hx x (List.mem_cons_of_mem _ hm)) ht.2 n _ hk
  | group b body tail rest =>
    rw [Forest.Typed] at ht
    rw [Forest.blocks] at hb
    obtain ⟨htb, htbody, httail, htrest⟩ := ht
    have hopener : Opener strict R L m.exec.control true b :=
      ⟨fun hx => hb hx b List.mem_cons_self, by rw [htb]; rfl, iff_of_true rfl htb, h.control⟩
    have hin : ∀ x, x ∈ body.blocks ∨ x ∈ tail.blocks ∨ x ∈ rest.blocks → strict → R.blocks x := fun x hm hx =>
      hb hx x (List.mem_cons_of_mem _ (List.mem_append.mpr (hm.imp_right List.mem_append.mpr)))
    simp only [runForest, meets_bind, meets_read]
    refine (passes_levels (L := L) (b := b) hs (fun {n bare kept k} hk hkept => ?_) n false [] h fun _ =>
      ⟨rfl, fun h => (by cases h)⟩).weaken fun r k hk => ?_
    · refine meets_unlessCancelled (fun _ => hk.leaving) ?_
      exact branch_levels hse hwell hs kept hopener (fun hx => .of_again htb (hkept hx).1 (hkept hx).2)
        (fun hl => forest_levels hse hwell hs body (fun hx x hm => hin x (.inl hm) hx) htbody n _ hl) hk
    · cases r with
      | error e => exact hk
      | ok v =>
        dsimp only
        rw [meets_bind]
        refine (tail_levels hse hwell hs tail (fun hx x hm => hin x (.inr (.inl hm)) hx) httail n _
          h.control v hk).weaken fun flow k hk => ?_
        cases flow with
        | stop e => exact hk
        | on => exact forest_levels hse hwell hs rest (fun hx x hm => hin x (.inr (.inr hm)) hx) htrest n _ hk

theorem tail_levels {strict : Prop} {m₀ : Machine} {R : Region m₀.program} {args : List Value} {eval : Evaluator}
    {breach : Fault} (hse : Settling eval) (hwell : strict → EvaluatesWell R False False False eval) (hs : m₀.Scoped)
    (t : Tail) (hb : strict → ∀ b ∈ t.blocks, R.blocks b) (ht : t.Typed fun b => (m₀.program.kindOf b).type)
    (n i : Nat) {layer : Nat} {L outside : List ControlFrame} (hout : strict → outside = L ++ m₀.exec.control)
    (v : Value) {m : Machine} (h : Level strict m₀ args layer L m) :
    (runTail eval breach (m₀.exec.calls.length + 1) n outside i v t).Meets (Flowed strict m₀ args layer L)
      (.strictly strict) m := by
  cases t with
  | stop b => exact h.released v
  | more b body tail =>
    rw [Tail.Typed] at ht
    rw [Tail.blocks] at hb
    obtain ⟨htb, htbody, httail⟩ := ht
    have hopener : Opener strict R L outside false b :=
      ⟨fun hx => hb hx b List.mem_cons_self, by rw [htb]; rfl, by rw [htb]; decide, hout⟩
    have hin : ∀ x, x ∈ body.blocks ∨ x ∈ tail.blocks → strict → R.blocks x := fun x hm hx =>
      hb hx x (List.mem_cons_of_mem _ (List.mem_append.mpr hm))
    rw [runTail, meets_bind]
    refine (branch_levels hse hwell hs [] hopener (fun _ => .continues v htb (Int.natCast_nonneg _))
      (fun hl => forest_levels hse hwell hs body (fun hx x hm => hin x (.inl hm) hx) htbody n _ hl) h).weaken
      fun r k hk => ?_
    cases r with
    | through w => exact tail_levels hse hwell hs tail (fun hx x hm => hin x (.inr hm) hx) httail n _ hout w hk
    | again bare => cases hk.1
    | stop e => exact hk

end

/-! ## Invocations -/

theorem runChain_levels (hse : Settling eval) (hwell : strict → EvaluatesWell R False False False eval)
    (ht : strict → R.Tidy) (hs : m₀.Scoped) {c : ChainId} (hc : strict → R.chains c) (n : Nat)
    (h : Level strict m₀ args layer L m) :
    (runChain eval breach (m₀.exec.calls.length + 1) n c).Meets (fun _ => Leaving strict m₀ args)
      (.strictly strict) m := by
  rw [runChain, meets_bind, meets_read, h.underway.program]
  cases htree : m₀.program.tree? c with
  | none =>
    refine ⟨h.underway.toScoped hs, fun hx => ?_⟩
    obtain ⟨f, hf⟩ := (validate_iff_tree _ c).mp ((ht hx).validated (hc hx))
    cases hf.symm.trans htree
  | some f =>
    obtain ⟨hblocks, htyped⟩ := blocks_of_tree htree
    dsimp only
    rw [meets_bind]
    refine (forest_levels hse hwell hs f (fun hx b hb => R.listed (hc hx) (hblocks ▸ hb)) htyped n 0 h).weaken
      fun flow k hk => ?_
    cases flow with
    | on => exact hk.leaving
    | stop e => exact hk

/-- Structured evaluations and invocations restore what the walk restores, for all natives, and break
    down only where a stack is full in a tidy region of standard blocks. -/
theorem structured_keeps (breach : Fault) (n : Nat) :
    (Settling (evaluate breach n) ∧ Restoring (invoke breach n)) ∧
      ∀ {p : Program} {R : Region p}, R.Tidy →
        EvaluatesWell R False False False (evaluate breach n) ∧ InvokesWell R False False False (invoke breach n) := by
  induction n with
  | zero =>
    refine ⟨⟨?_, ?_⟩, fun _ => ⟨?_, ?_⟩⟩
    · intro b index mark bare prior m hc hs
      rw [evaluate]
      exact hs
    · intro c args m hs
      rw [invoke]
      exact hs
    · intro b index mark bare prior kept K m _ _ _ _ _
      rw [evaluate]
      trivial
    · intro c args m _ _ _ _ _
      rw [invoke]
      trivial
  | succ n ih =>
    obtain ⟨⟨hse, hr⟩, hwell⟩ := ih
    rw [evaluate, invoke]
    refine ⟨⟨evaluateWith_settling hse hr, invokeWith_restoring ?_⟩, fun {p R} ht =>
      ⟨evaluateWith_serves (hwell ht).1 hse (hwell ht).2 hr (.inr ht), invokeWith_keeps ?_⟩⟩
    · intro c m₀ args m hs h
      have hlevel : Level False m₀ args m.exec.layer [] m := ⟨h, rfl, False.elim⟩
      exact (runChain_levels (R := .none _) hse False.elim False.elim hs (c := c) False.elim n hlevel).mono
        (fun _ _ hk => hk.underway) (fun _ _ hf => hf.1) (fun _ hk => hk) fun _ hk => hk.1
    · rintro c m₀ args hc hs rfl - -
      have hlevel : Level True m₀ args 0 [] { m₀ with exec.calls := { args := args } :: m₀.exec.calls } :=
        ⟨.begun m₀ args, rfl, fun _ => rfl⟩
      exact (runChain_levels hse (fun _ => (hwell ht).1) (fun _ => ht) hs (fun _ => hc) n hlevel).mono
        (fun _ _ hk => ⟨hk.underway, False.elim, hk.control trivial⟩) (fun _ _ hf => .inl (hf.2 trivial))
        (fun _ _ => trivial) fun _ hk => hk.2 trivial

end Structured

end BlockEngine
