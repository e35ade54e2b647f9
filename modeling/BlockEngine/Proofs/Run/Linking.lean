/-
  BlockEngine.Proofs.Run.Linking — which chain a procedure call runs.

  A run links the procedures that the chains of its program define, before it runs any of them. The
  link is kept in the definition, where every later link of it takes its place; nothing ever takes
  it away. So a call is bound by the last chain that ever held its signature at a start: one of this
  run's program, if there is any, and else one of an earlier run's, although the program may have
  lost it since.

  Proved: `calls_follow_links`. In every session of one engine, in which chains are added and removed
  and programs run to their end, a call of a run evaluates as a call of that chain, and fails as
  unlinked, before anything else, if no run so far had one (`Program.Binds`).
  `links_outlive_their_chains` shows that the chains of the program alone do not decide.
-/

import BlockEngine.Proofs.Machine.Called
import BlockEngine.Proofs.Machine.Relate
import BlockEngine.Proofs.Run.Callers

namespace BlockEngine

open Work

/-! ## Links -/

/-- The hat of a chain holds the definition, or one that embeds it. -/
def Program.holds (p : Program) (r : RegistryId) (k : KindId) (c : ChainId) : Bool :=
  match p.signature? c with
  | some h =>
    let x := p.registry r
    (x.kind? h).isSome && (h :: x.params h).any fun h => x.kind? h == some k
  | none => false

def Definition.unowned (d : Definition) : Definition := { d with owner := none }

def Registry.unlinked (x : Registry) : Registry := { x with kinds := x.kinds.map Definition.unowned }

def Program.unlinked (p : Program) : Program := { p with registries := p.registries.map Registry.unlinked }

namespace Registry

variable (x : Registry)

theorem kind_unlinked (k : KindId) : x.unlinked.kind k = (x.kind k).unowned := by
  unfold kind unlinked
  rw [Array.getElem?_map]
  cases x.kinds[k]? <;> rfl

theorem kind?_unlinked (h : Handle) : x.unlinked.kind? h = x.kind? h := rfl

theorem params_unlinked (h : Handle) : x.unlinked.params h = x.params h := by
  unfold params definition?
  rw [kind?_unlinked]
  cases x.kind? h with
  | none => rfl
  | some k =>
    dsimp only [Option.map_some]
    rw [kind_unlinked]
    rfl

theorem unlinked_own (c : ChainId) (h : Handle) : (x.own c h).unlinked = x.unlinked := by
  unfold own
  split
  · next k _ =>
    unfold unlinked
    congr 1
    refine Array.ext_getElem? fun i => ?_
    rw [Array.getElem?_map, Array.getElem?_map, Array.getElem?_modify]
    split
    · rw [Option.map_map]
      rfl
    · rfl
  · rfl

theorem size_own (c : ChainId) (h : Handle) : (x.own c h).kinds.size = x.kinds.size := by
  unfold own
  split
  · exact Array.size_modify
  · rfl

theorem kind_own {k : KindId} (hk : k < x.kinds.size) (c : ChainId) (h : Handle) :
    (x.own c h).kind k =
      { x.kind k with owner := if x.kind? h = some k then some c else (x.kind k).owner } := by
  unfold own
  cases hh : x.kind? h with
  | none => rfl
  | some i =>
    dsimp only [kind]
    rw [Array.getElem?_modify, Array.getElem?_eq_getElem hk]
    by_cases hi : i = k
    · rw [if_pos hi, if_pos (congrArg some hi)]
      rfl
    · rw [if_neg hi, if_neg fun he => hi (Option.some.inj he)]

/-- Linking some definitions to a chain sets the owner of these. -/
theorem kind_foldl_own {k : KindId} (hk : k < x.kinds.size) (c : ChainId) (hs : List Handle) :
    (hs.foldl (own c) x).kind k =
      { x.kind k with
        owner := if (hs.any fun h => x.kind? h == some k) = true then some c else (x.kind k).owner } := by
  induction hs generalizing x with
  | nil => rfl
  | cons h hs ih =>
    have hkind? : ∀ h', (x.own c h).kind? h' = x.kind? h' := fun h' => by
      rw [← kind?_unlinked, unlinked_own, kind?_unlinked]
    rw [List.foldl_cons, ih (x.own c h) ((x.size_own c h).symm ▸ hk), x.kind_own hk]
    simp only [hkind?, List.any_cons, Bool.or_eq_true, beq_iff_eq]
    by_cases hh : x.kind? h = some k
    · simp [hh]
    · simp [hh]

end Registry

namespace Program

variable (p : Program) (r : RegistryId)

theorem registry_unlinked : p.unlinked.registry r = (p.registry r).unlinked := by
  unfold registry unlinked
  rw [Array.getElem?_map]
  cases p.registries[r]? with
  | none => simp [Registry.unlinked]
  | some x => rfl

theorem definitionOf_unlinked (x : Block) : p.unlinked.definitionOf x = (p.definitionOf x).unowned := by
  rw [definitionOf, registry_unlinked, Registry.kind_unlinked]
  rfl

theorem kindOf_unlinked (b : BlockId) : p.unlinked.kindOf b = (p.kindOf b).unowned := by
  unfold kindOf
  rw [show p.unlinked.blocks = p.blocks from rfl]
  cases p.blocks[b]? with
  | none => rfl
  | some x => exact p.definitionOf_unlinked x

theorem signature?_unlinked (c : ChainId) : p.unlinked.signature? c = p.signature? c := by
  unfold signature?
  rw [show p.unlinked.chain c = p.chain c from rfl]
  cases p.chain c with
  | nil => rfl
  | cons b bs =>
    dsimp only
    rw [kindOf_unlinked]
    rfl

theorem holds_unlinked (k : KindId) (c : ChainId) : p.unlinked.holds r k c = p.holds r k c := by
  unfold holds
  rw [signature?_unlinked]
  dsimp only
  rw [registry_unlinked]
  simp only [Registry.params_unlinked, Registry.kind?_unlinked]

theorem unlinked_linkChain (c : ChainId) : (p.linkChain r c).unlinked = p.unlinked := by
  have hown : ∀ (hs : List Handle) (x : Registry), (hs.foldl (Registry.own c) x).unlinked = x.unlinked := by
    intro hs
    induction hs with
    | nil => exact fun _ => rfl
    | cons h hs ih => exact fun x => (ih _).trans (x.unlinked_own c h)
  unfold linkChain
  split
  · next h _ =>
    dsimp only
    split
    · unfold unlinked setRegistry
      congr 1
      refine Array.ext_getElem? fun i => ?_
      rw [Array.getElem?_map, Array.getElem?_map, Array.getElem?_setIfInBounds]
      by_cases hi : r = i
      · subst hi
        rw [if_pos rfl]
        by_cases hr : r < p.registries.size
        · rw [if_pos hr, Array.getElem?_eq_getElem hr, Option.map_some, Option.map_some, hown, registry,
            Array.getElem?_eq_getElem hr, Option.getD_some]
        · rw [if_neg hr, Array.getElem?_eq_none (Nat.le_of_not_lt hr)]
      · rw [if_neg hi]
    · rfl
  · rfl

/-- Linking changes nothing but owners. -/
theorem unlinked_link (cs : List ChainId) : (p.link r cs).unlinked = p.unlinked := by
  induction cs generalizing p with
  | nil => rfl
  | cons c cs ih => exact (ih _).trans (p.unlinked_linkChain r c)

theorem holds_linkChain (k : KindId) (c d : ChainId) : (p.linkChain r c).holds r k d = p.holds r k d := by
  rw [← holds_unlinked, unlinked_linkChain, holds_unlinked]

/-- Linking a chain makes it the owner of what its hat holds. -/
theorem kind_linkChain {k : KindId} (hk : k < (p.registry r).kinds.size) (c : ChainId) :
    ((p.linkChain r c).registry r).kind k =
      { (p.registry r).kind k with
        owner := if p.holds r k c = true then some c else ((p.registry r).kind k).owner } := by
  have hr : r < p.registries.size := by
    by_contra hr
    rw [registry, Array.getElem?_eq_none (Nat.le_of_not_lt hr)] at hk
    exact absurd hk (Nat.not_lt_zero k)
  unfold linkChain holds
  cases p.signature? c with
  | none => rfl
  | some h =>
    dsimp only
    by_cases hh : ((p.registry r).kind? h).isSome = true
    · simp only [hh, Bool.true_and, if_true]
      rw [← (p.registry r).kind_foldl_own hk c, registry, setRegistry, Array.getElem?_setIfInBounds, if_pos rfl,
        if_pos hr, Option.getD_some]
    · simp only [Bool.eq_false_iff.mpr hh, Bool.false_and, Bool.false_eq_true, if_false]

theorem size_linkChain (c : ChainId) : ((p.linkChain r c).registry r).kinds.size = (p.registry r).kinds.size := by
  have hsize : ∀ q : Program, (q.registry r).kinds.size = (q.unlinked.registry r).kinds.size := fun q => by
    rw [registry_unlinked]
    exact (Array.size_map).symm
  rw [hsize, unlinked_linkChain, ← hsize]

/-- Linking chains in turn leaves a definition with the last one that holds it. -/
theorem kind_link {k : KindId} (hk : k < (p.registry r).kinds.size) (cs : List ChainId) :
    ((p.link r cs).registry r).kind k =
      { (p.registry r).kind k with
        owner := ((cs.filter (p.holds r k)).getLast?).or ((p.registry r).kind k).owner } := by
  induction cs generalizing p with
  | nil => rfl
  | cons c cs ih =>
    have hholds : (p.linkChain r c).holds r k = p.holds r k := funext fun d => p.holds_linkChain r k c d
    rw [link, List.foldl_cons, ← link, ih (p.linkChain r c) ((p.size_linkChain r c).symm ▸ hk), hholds,
      p.kind_linkChain r hk]
    by_cases hc : p.holds r k c = true
    · rw [List.filter_cons_of_pos hc, List.getLast?_cons, if_pos hc]
      cases (cs.filter (p.holds r k)).getLast? <;> rfl
    · rw [List.filter_cons_of_neg hc, if_neg hc]

/-- A call block is bound to the last chain that was linked and holds its signature. -/
theorem kindOf_link {b : BlockId} {x : Block} (hb : p.blocks[b]? = some x) (hcall : (p.kindOf b).role = .call)
    (cs : List ChainId) :
    (p.link x.registry cs).kindOf b =
      { p.kindOf b with
        owner := ((cs.filter (p.holds x.registry x.kind)).getLast?).or (p.kindOf b).owner } := by
  have hkind : p.kindOf b = (p.registry x.registry).kind x.kind := by
    rw [kindOf, hb]
    rfl
  have hk : x.kind < (p.registry x.registry).kinds.size := by
    by_contra hk
    rw [hkind, Registry.kind, Array.getElem?_eq_none (Nat.le_of_not_lt hk)] at hcall
    cases hcall
  have hblocks : (p.link x.registry cs).blocks = p.blocks := by
    have h := congrArg (·.blocks) (p.unlinked_link x.registry cs)
    exact h
  rw [hkind, ← p.kind_link x.registry hk cs, kindOf, hblocks, hb]
  rfl

end Program

/-! ## Calls -/

/-- What follows may depend on what is known of a result. -/
theorem Outcome.Meets.driven_bind_congr {α β : Type} {E : Exits} {host : Machine → Machine}
    (hh : ∀ m : Machine, m.MayResume (host m)) {f g : α → Machine → Outcome β} {o : Outcome α}
    (h : o.Meets (fun a m => (f a m).driven host = (g a m).driven host) E) :
    (o.bind f).driven host = (o.bind g).driven host := by
  induction o with
  | done a m => exact h
  | fault x m => rfl
  | starved m => rfl
  | paused m resume ih => exact ih (host m) (h.2 _ (hh m))

namespace Work

/-- Evaluates a block as a call of a chain, which runs on the operands that follow it once all are
    there. -/
def evaluateCall (eval : Evaluator) (invoke : Invoker) (c : ChainId) : Evaluator :=
  fun b index mark bare prior => do
    let d ← kindOf b
    let base ← read (·.exec.operands.length)
    match ← pushCalled eval d c b index mark bare prior with
    | .error e =>
      truncateOperands base
      return .error e
    | .ok () =>
      let canSkip := decide (0 ≤ index) && d.type.opens && mark == .opening
      let run : Native := fun operands => Proc.call (some c) operands.tail
      let (v, e) ← callNative invoke run { block := b, index, canSkip } mark base
      match e.error with
      | some x =>
        release v
        return .error (x.blame d.id index)
      | none => return .ok (v, ⟨if 0 ≤ index then e.jump else none, e.skip⟩)

/-- A call that is linked to a chain evaluates as a call of that chain. -/
theorem evaluateWith_linked {b : BlockId} {m : Machine} (hcall : (m.program.kindOf b).role = .call)
    (hnative : (m.program.kindOf b).native = some callProcedure) {c : ChainId}
    (howner : (m.program.kindOf b).owner = some c) {eval : Evaluator} (he : Settling eval) (invoke : Invoker)
    (hc : m.exec.calls ≠ []) (hs : m.Scoped) {host : Machine → Machine} (hh : ∀ m : Machine, m.MayResume (host m))
    (index : Int) (mark : Marker) (bare : Bool) (prior : Option Value) :
    (evaluateWith eval invoke b index mark bare prior m).driven host =
      (evaluateCall eval invoke c b index mark bare prior m).driven host := by
  simp only [evaluateWith, evaluateCall, kindOf, bind_apply, read, Outcome.bind, hnative]
  rw [pushOperands_linked hcall howner]
  refine Outcome.Meets.driven_bind_congr hh ((pushCalled_meets he _ c b index mark bare prior hc hs).weaken fun r k hk => ?_)
  obtain ⟨vs, hvs⟩ := hk
  cases r with
  | error e => rfl
  | ok u =>
    simp only [bind_apply]
    rewrite [callNative_callProcedure _ mark hvs]
    rfl

end Work

/-- What evaluating a block comes to in a program where it is bound to a chain, or to none. -/
structure Program.Binds (p : Program) (b : BlockId) (bound : Option ChainId) : Prop where
  /-- It calls the chain that it is bound to. -/
  calls : ∀ c, bound = some c → ∀ n index mark bare prior (m : Machine), m.program = p → m.exec.calls ≠ [] →
    m.Scoped → ∀ host : Machine → Machine, (∀ m : Machine, m.MayResume (host m)) →
      (evaluate (n + 1) b index mark bare prior m).driven host =
        (evaluateCall (evaluate n) (invoke n) c b index mark bare prior m).driven host
  /-- Bound to none it fails as unlinked, before anything is evaluated. -/
  fails : bound = none → ∀ n index mark bare prior (m : Machine), m.program = p →
    evaluate (n + 1) b index mark bare prior m =
      .done (.error (.inBlock (p.kindOf b).id index .unlinked))
        { m with storage := prior.elim id Storage.release m.storage }

/-- The blocks of a signature are bound to its owner. -/
theorem Program.binds_owner {p : Program} {b : BlockId} (hcall : (p.kindOf b).role = .call)
    (hnative : (p.kindOf b).native = some callProcedure) : p.Binds b (p.kindOf b).owner where
  calls c howner n index mark bare prior m hm hc hs host hh := by
    subst hm
    rw [evaluate]
    exact evaluateWith_linked hcall hnative howner (keeps_scopes n).1 (invoke n) hc hs hh index mark bare prior
  fails howner n index mark bare prior m hm := by
    subst hm
    rw [evaluate]
    exact evaluateWith_unlinked index mark bare prior hcall hnative howner (evaluate n) (invoke n)

/-! ## Runs -/

/-- How far a run of some chains has come in a world with the program `q`: nothing of the program
    `p` is linked yet, or all is and stays so. -/
def Phase.Links (p : Program) (r : RegistryId) (cs : List ChainId) (q : Program) : Phase → Prop
  | .ready started _ => started = cs ∧ q = p
  | .paused resume => q = p.link r cs ∧
      ∀ k : Machine, k.program = q → (resume k).Maintains (fun m => m.program = q) fun e => e.status ≠ .running
  | _ => q = p.link r cs

def Phase.hasBegun : Phase → Bool
  | .ready _ _ => false
  | _ => true

theorem Phase.Links.linked {p q : Program} {r : RegistryId} {cs : List ChainId} {phase : Phase}
    (h : phase.Links p r cs q) (hb : phase.hasBegun = true) : q = p.link r cs := by
  cases phase with
  | ready _ _ => cases hb
  | paused resume => exact h.1
  | _ => exact h

theorem Work.program_constant (p : Program) : Constant fun m => m.program = p := fun _ _ hm hp _ _ => hp.trans hm

namespace World

/-- What may happen to a run, in any order, from its start on: it is worked on, with waits or right
    through them, cancelled, cleaned up and closed. -/
inductive Progress (r : RunId) (w : World) : World → Prop
  | started : Progress r w w
  | work {w' : World} (wait : Machine → Bool) : Progress r w w' → Progress r w (w'.workPaced wait r)
  | workThrough {w' : World} : Progress r w w' → Progress r w (w'.workThrough r)
  | cancel {w' : World} (cause : CancelCause) : Progress r w w' → Progress r w (w'.cancel r cause)
  | cleanUp {w' : World} : Progress r w w' → Progress r w (w'.cleanUp r)
  | close {w' : World} : Progress r w w' → Progress r w (w'.close r)

/-- A run of some chains is under way in an engine: nothing of the program `p` is linked yet, or all
    is. -/
structure Linking (p : Program) (g : RegistryId) (cs : List ChainId) (v : EngineId) (x : ExecId) (r : RunId)
    (w : World) : Prop where
  registry : (w.engine v).registry = g
  run : ∃ phase : Phase, w.runs[r]? = some ⟨v, x, phase⟩ ∧ phase.Links p g cs w.program

section

variable {p : Program} {g : RegistryId} {cs : List ChainId} {v : EngineId} {x : ExecId} {r : RunId} {w : World}

/-- What a stretch of work comes to. -/
theorem Linking.settle (hg : (w.engine v).registry = g) {phase : Phase} (hr : w.runs[r]? = some ⟨v, x, phase⟩)
    {o : Outcome Ending} (ho : o.Maintains (fun m => m.program = p.link g cs) fun e => e.status ≠ .running) :
    (w.settle r x o).Linking p g cs v x r := by
  have hend : ∀ (m : Machine) (phase' : Phase), m.program = p.link g cs → phase'.Links p g cs m.program →
      ((w.absorb x m).setPhase r phase').Linking p g cs v x r := fun m phase' hm hp =>
    ⟨hg, phase', runs_setPhase (w := w.absorb x m) hr phase', hp⟩
  cases o with
  | done e m => exact hend m (.ended e) ho.2 ho.2
  | fault f m => exact hend m (.ended _) ho ho
  | paused m resume =>
    refine hend m (.paused resume) ho.1 ⟨ho.1, ?_⟩
    rw [ho.1]
    exact ho.2
  | starved m =>
    refine hend m (.paused _) ho ⟨ho, ?_⟩
    exact fun _ h => h

/-- Whatever happens to a run, it links its program before all else and leaves it so. -/
theorem Linking.progress {w' : World} (h : w.Linking p g cs v x r) (hw : w.Progress r w') :
    w'.Linking p g cs v x r := by
  induction hw with
  | started => exact h
  | @work w' wait _ ih =>
    obtain ⟨hg, phase, hr, hp⟩ := ih
    unfold workPaced
    rw [hr]
    cases phase with
    | ready cs' cause =>
      obtain ⟨rfl, rfl⟩ := hp
      refine .settle hg hr ?_
      rw [hg, worker, bind_apply]
      exact runMains_maintains (paced_steady (program_constant _) wait fuel).2.1 cs' [] _ rfl
    | paused resume => exact .settle hg hr (hp.1 ▸ hp.2 (w'.machine x) rfl)
    | _ => exact ⟨hg, _, hr, hp⟩
  | @workThrough w' _ ih =>
    obtain ⟨hg, phase, hr, hp⟩ := ih
    unfold World.workThrough
    rw [hr]
    cases phase with
    | paused resume => exact .settle hg hr (hp.1 ▸ hp.2 (w'.machine x) rfl).unpaused
    | _ => exact ⟨hg, _, hr, hp⟩
  | @cancel w' cause _ ih =>
    obtain ⟨hg, phase, hr, hp⟩ := ih
    unfold World.cancel
    rw [hr]
    cases phase with
    | ready cs' cause' => exact ⟨hg, _, runs_setPhase hr _, hp⟩
    | _ => exact ⟨hg, _, hr, hp⟩
  | @cleanUp w' _ ih =>
    obtain ⟨hg, phase, hr, hp⟩ := ih
    unfold World.cleanUp
    rw [hr]
    cases phase with
    | ended e => exact ⟨hg, _, runs_setPhase (w := w'.absorb x _) hr _, hp⟩
    | _ => exact ⟨hg, _, hr, hp⟩
  | @close w' _ ih =>
    obtain ⟨hg, phase, hr, hp⟩ := ih
    unfold World.close
    rw [hr]
    cases phase with
    | cleaned e => exact ⟨hg, _, runs_setPhase hr _, hp⟩
    | _ => exact ⟨hg, _, hr, hp⟩

/-- What a start that succeeds does. -/
theorem start_ok {cause : Option CancelCause} {w₁ : World} (h : w.start v x cause = (.ok r, w₁)) :
    r = w.runs.size ∧ w₁ = w.taken v x cause := by
  have hidle : (w.exec x).running = false := by
    by_contra hx
    rw [start, claimExec, if_pos (by simpa using hx)] at h
    cases h
  have hfree : (w.engine v).current = none := by
    by_contra hv
    have hbusy : ((w.setExec x { w.exec x with running := true }).engine v).current.isSome = true :=
      Option.isSome_iff_ne_none.mpr hv
    rw [start, claimExec, if_neg (by rw [hidle]; decide)] at h
    dsimp only at h
    rw [claimEngine, if_pos hbusy] at h
    cases h
  rw [w.start_free v x cause hidle hfree] at h
  cases h
  exact ⟨rfl, rfl⟩

theorem Linking.start {cause : Option CancelCause} {w₁ : World} (h : w.start v x cause = (.ok r, w₁)) :
    w₁.Linking w.program (w.engine v).registry (w.engine v).chains v x r := by
  obtain ⟨rfl, rfl⟩ := start_ok h
  exact ⟨w.taken_registry v x cause, _, w.taken_ready v x cause, rfl, rfl⟩

end

end World

/-! ## Sessions -/

/-- What may happen to an engine between its runs: chains are added and removed, and programs are run
    to their end. The chains that each start found are kept, in order. -/
inductive EngineSession (v : EngineId) (w₀ : World) : List (List ChainId) → World → Prop
  | opened : EngineSession v w₀ [] w₀
  | addChain {starts : List (List ChainId)} {w : World} (c : ChainId) : EngineSession v w₀ starts w →
      EngineSession v w₀ starts (w.mapEngine v fun e => { e with chains := e.chains ++ [c] })
  | removeChain {starts : List (List ChainId)} {w : World} (c : ChainId) : EngineSession v w₀ starts w →
      EngineSession v w₀ starts (w.mapEngine v fun e => { e with chains := e.chains.erase c })
  | run {starts : List (List ChainId)} {w w₁ w₂ w₃ : World} {x : ExecId} {cause : Option CancelCause} {r : RunId}
      {e : Ending} : EngineSession v w₀ starts w → w.start v x cause = (.ok r, w₁) → w₁.Progress r w₂ →
      w₂.join r = (some e, w₃) → EngineSession v w₀ (starts ++ [(w.engine v).chains]) w₃

/-- What a session leaves of a program: everything linked that was there at some start. -/
theorem EngineSession.linked {v : EngineId} {w₀ w : World} {starts : List (List ChainId)} (h : EngineSession v w₀ starts w) :
    (w.engine v).registry = (w₀.engine v).registry ∧
      w.program = w₀.program.link (w₀.engine v).registry starts.flatten := by
  induction h with
  | opened => exact ⟨rfl, rfl⟩
  | addChain c _ ih =>
    refine ⟨Eq.trans ?_ ih.1, ih.2⟩
    exact World.registry_mapEngine _ v fun _ => rfl
  | removeChain c _ ih =>
    refine ⟨Eq.trans ?_ ih.1, ih.2⟩
    exact World.registry_mapEngine _ v fun _ => rfl
  | @run starts w w₁ w₂ w₃ x cause r e _ hstart hprogress hjoin ih =>
    obtain ⟨hg, phase, hr, hphase⟩ := (World.Linking.start hstart).progress hprogress
    obtain ⟨rfl, rfl⟩ : phase = .closed e ∧
        w₃ = w₂.mapEngine v fun x => if x.current = some r then { x with current := none } else x := by
      unfold World.join at hjoin
      rw [hr] at hjoin
      cases phase <;> cases hjoin
      exact ⟨rfl, rfl⟩
    have hkept : ∀ e : Engine, (if e.current = some r then { e with current := none } else e).registry = e.registry := by
      intro e
      split <;> rfl
    refine ⟨(World.registry_mapEngine w₂ v hkept).trans (hg.trans ih.1), ?_⟩
    show w₂.program = _
    rw [hphase.linked rfl, ih.1, ih.2, List.flatten_append, List.flatten_singleton]
    exact (List.foldl_append (f := Program.linkChain (w₀.engine v).registry)).symm

/-- In every session of an engine, from the moment that a run has begun, its calls of a procedure that
    was not linked before the session are bound to the last chain of the run's program that holds the
    signature; where there is none, to the last of those that earlier runs found; and where there is
    none either, to no chain. -/
theorem calls_follow_links {v : EngineId} {w₀ w : World} {starts : List (List ChainId)} (hs : EngineSession v w₀ starts w)
    {x : ExecId} {cause : Option CancelCause} {r : RunId} {w₁ w₂ : World} (hstart : w.start v x cause = (.ok r, w₁))
    (hprogress : w₁.Progress r w₂) {run : Run} (hr : w₂.runs[r]? = some run) (hbegun : run.phase.hasBegun = true)
    {b : BlockId} {block : Block} (hb : w₀.program.blocks[b]? = some block)
    (hg : block.registry = (w₀.engine v).registry) (hcall : (w₀.program.kindOf b).role = .call)
    (hnative : (w₀.program.kindOf b).native = some callProcedure) (hnew : (w₀.program.kindOf b).owner = none) :
    let lastOf (cs : List ChainId) := (cs.filter (w₀.program.holds block.registry block.kind)).getLast?
    w₂.program.Binds b ((lastOf (w.engine v).chains).or (lastOf starts.flatten)) := by
  intro lastOf
  obtain ⟨hregistry, hprogram⟩ := hs.linked
  obtain ⟨-, phase, hr', hphase⟩ := (World.Linking.start hstart).progress hprogress
  obtain rfl : run = ⟨v, x, phase⟩ := Option.some.inj (hr.symm.trans hr')
  have hlinked : w₂.program = w₀.program.link block.registry (starts.flatten ++ (w.engine v).chains) := by
    rw [hphase.linked hbegun, hregistry, hprogram, ← hg]
    exact (List.foldl_append (f := Program.linkChain block.registry)).symm
  have hkind := w₀.program.kindOf_link hb hcall (starts.flatten ++ (w.engine v).chains)
  rw [← hlinked, hnew, Option.or_none, List.filter_append, List.getLast?_append] at hkind
  have howner : (w₂.program.kindOf b).owner = (lastOf (w.engine v).chains).or (lastOf starts.flatten) := by
    rw [hkind]
  rw [← howner]
  refine Program.binds_owner ?_ ?_
  · rw [hkind]
    exact hcall
  · rw [hkind]
    exact hnative

/-- An engine with an entry chain that calls a procedure, and the chain that defines it. -/
def greetingWorld : World where
  program :=
    { registries := #[{
        kinds := Library.standard.toArray.push { id := "greet", native := some callProcedure, role := .call }
        records := #[⟨1, some ⟨19, 2⟩⟩] }]
      blocks := #[
        ⟨0, ⟨1, 1⟩, 1, [], none, []⟩,
        ⟨0, ⟨0, 1⟩, 19, [], none, []⟩,
        ⟨0, ⟨2, 1⟩, 2, [.of .definition (.definition ⟨0, 1⟩)], none, []⟩,
        ⟨0, ⟨10, 1⟩, 10, [.of .argument (.text "hello")], none, []⟩]
      chains := #[[0, 1], [2, 3]] }
  execs := #[{ limits := .standard }]
  engines := #[{ registry := 0, chains := [0, 1] }]

/-- The engine once it has run its program, and lost the chain that defines the procedure. -/
def greetedWorld : World :=
  ((((greetingWorld.taken 0 0 none).proceed 0).join 0).2).mapEngine 0 fun e => { e with chains := e.chains.erase 1 }

theorem progress_proceed (w : World) (r : RunId) : w.Progress r (w.proceed r) := by
  rw [World.proceed, ← w.workPaced_never]
  exact .close (.cleanUp (.work _ .started))

theorem World.join_eq {w : World} {r : RunId} {e : Ending} (h : (w.join r).1 = some e) :
    w.join r = (some e, (w.join r).2) := Prod.ext h rfl

/-- A run that ends without a pause is one more of a session. -/
theorem EngineSession.proceed {v : EngineId} {w₀ w w₁ : World} {starts : List (List ChainId)} (hs : EngineSession v w₀ starts w)
    {x : ExecId} {cause : Option CancelCause} {r : RunId} (hstart : w.start v x cause = (.ok r, w₁))
    (hjoin : ((w₁.proceed r).join r).1.isSome = true) :
    EngineSession v w₀ (starts ++ [(w.engine v).chains]) ((w₁.proceed r).join r).2 := by
  obtain ⟨e, he⟩ := Option.isSome_iff_exists.mp hjoin
  exact .run hs hstart (progress_proceed w₁ r) (World.join_eq he)

theorem greeted_session : EngineSession 0 greetingWorld [[0, 1]] greetedWorld := by
  have hjoin : (((greetingWorld.taken 0 0 none).proceed 0).join 0).1.isSome = true := by decide +kernel
  exact .removeChain 1 (EngineSession.opened.proceed (greetingWorld.start_free 0 0 none rfl rfl) hjoin)

theorem greeted_start : greetedWorld.start 0 0 none = (.ok 1, greetedWorld.taken 0 0 none) := by
  have hsize : greetedWorld.runs.size = 1 := by decide +kernel
  rw [← hsize]
  exact greetedWorld.start_free 0 0 none (by decide +kernel) (by decide +kernel)

theorem greeting_kind :
    greetingWorld.program.kindOf 1 = { id := "greet", native := some callProcedure, role := .call } := by
  have hsize : 19 = Library.standard.toArray.size := by decide
  show (Library.standard.toArray.push _)[19]?.getD { id := [] } = _
  rw [Array.getElem?_push, if_pos hsize, Option.getD_some]

theorem calls_follow_links_greeting :
    ∃ w₁ w₂ r, greetedWorld.start 0 0 none = (.ok r, w₁) ∧ w₁.Progress r w₂ ∧ w₂.program.Binds 1 (some 1) := by
  have hphase : ((((greetedWorld.taken 0 0 none).proceed 1).runs[1]?).map (·.phase.hasBegun)) = some true := by
    decide +kernel
  have hlost : ((greetedWorld.engine 0).chains.filter (greetingWorld.program.holds 0 19)).getLast? = none := by
    decide +kernel
  have hfound : ([[0, 1]].flatten.filter (greetingWorld.program.holds 0 19)).getLast? = some 1 := by decide +kernel
  obtain ⟨w₂, hprogress, run, hr, hbegun⟩ : ∃ w₂, (greetedWorld.taken 0 0 none).Progress 1 w₂ ∧
      ∃ run, w₂.runs[1]? = some run ∧ run.phase.hasBegun = true :=
    ⟨_, progress_proceed _ 1, Option.map_eq_some_iff.mp hphase⟩
  have hcall : (greetingWorld.program.kindOf 1).role = .call := by rw [greeting_kind]
  have hnative : (greetingWorld.program.kindOf 1).native = some callProcedure := by rw [greeting_kind]
  have hnew : (greetingWorld.program.kindOf 1).owner = none := by rw [greeting_kind]
  have hblock : greetingWorld.program.blocks[1]? = some ⟨0, ⟨0, 1⟩, 19, [], none, []⟩ := rfl
  have hbinds := calls_follow_links greeted_session greeted_start hprogress hr hbegun hblock rfl hcall hnative hnew
  dsimp only at hbinds
  rw [hlost, hfound] at hbinds
  exact ⟨_, _, 1, greeted_start, hprogress, hbinds⟩

/-- The chains of a run's program alone do not decide: here none of them holds the signature that the
    run calls, yet the call runs the chain that an earlier run found. -/
theorem links_outlive_their_chains :
    EngineSession 0 greetingWorld [[0, 1]] greetedWorld ∧
      (greetedWorld.engine 0).chains.any (greetedWorld.program.holds 0 19) = false ∧
      ∃ r w₁ e w₂, greetedWorld.start 0 0 none = (.ok r, w₁) ∧ (w₁.proceed r).join r = (some e, w₂) ∧
        e.status = .ok ∧ w₂.journal.map (·.block) = [3, 2, 1, 0, 3, 2, 1, 0] := by
  have hstatus : ((((greetedWorld.taken 0 0 none).proceed 1).join 1).1).map (·.status) = some .ok := by decide +kernel
  have hjournal : (((greetedWorld.taken 0 0 none).proceed 1).join 1).2.journal.map (·.block) =
      [3, 2, 1, 0, 3, 2, 1, 0] := by decide +kernel
  obtain ⟨e, he, hok⟩ := Option.map_eq_some_iff.mp hstatus
  exact ⟨greeted_session, by decide +kernel, 1, _, e, _, greeted_start, World.join_eq he, hok, hjournal⟩

end BlockEngine
