/-
  BlockEngine.Proofs.Run.Blame — which block the error of a failed run names.

  Proved: `failures_blame_the_first_stop`. The error of a run that fails names one block and no other. It
  is the block that a run which breaks down at its first stop breaks down at; it failed by itself, with
  the cause that the error gives. The position is the one in the chain that this block was run in, and -1
  just if it stood in an argument, whatever calls and arguments there were around it.
-/

import BlockEngine.Proofs.Library.Stopping

namespace BlockEngine

open Work

variable {p : Program}

/-- The chain that stops a run. -/
theorem runMains_blames (n : Nat) (G : Realm p) (cs : List ChainId) (hcs : ∀ c ∈ cs, p.isMain c = true → G.chains c)
    (results : List Value) {m k : Machine} (hp : m.program = p) (hs : m.Scoped) {e : Option Error} {vs : List Value}
    (h : runMains (invokeWatched ⟨false, none⟩ n) cs results m = .done ⟨.failed, e, vs⟩ k) :
    ∃ (b : BlockId) (chain : Option ChainId) (index : Int) (x : Error) (l : Machine),
      e = some (.inBlock (p.kindOf b).id index x) ∧ p.Stands b chain index ∧ (p.kindOf b).FailsWith x ∧
      ∀ t, runMains (invokeWatched ⟨false, some t⟩ n) cs results m =
        .done ⟨.fatal, some (t (.block b chain index x)).toError, vs⟩ l := by
  induction cs generalizing results m with
  | nil => cases h
  | cons c cs ih =>
    have hcs' : ∀ c ∈ cs, p.isMain c = true → G.chains c := fun c hc => hcs c (List.mem_cons_of_mem _ hc)
    cases hmain : m.program.isMain c with
    | false =>
      simp only [runMains_pass hmain] at h ⊢
      exact ih hcs' results hp hs h
    | true =>
      simp only [runMains_cons hmain] at h ⊢
      have hechoes := (watched_echoes false G n).2.1 c [] m (hcs c List.mem_cons_self (hp ▸ hmain)) hp hs
      have hrestores := (watched_keeps_scopes ⟨false, none⟩ n).2.1 c [] m hs
      unfold Echoes at hechoes
      unfold Meets at hrestores
      generalize invokeWatched ⟨false, none⟩ n c [] m = o at h hechoes hrestores
      cases o with
      | fault f l => cases h
      | starved l => cases h
      | paused l resume => cases h
      | done a l =>
        obtain ⟨⟨v, rfl⟩, hsame⟩ | ⟨s, l', hs', rfl, -, hfault⟩ := hechoes
        · simp only [hsame]
          exact ih hcs' (results ++ [v]) (hrestores.program.trans hp) (hrestores.toScoped hs) h
        · simp only [hfault]
          cases s with
          | cancelled cause => cases h
          | block b chain index x =>
            have hbare : (Error.inBlock (p.kindOf b).id index x).isCancellation = false := hs'.2.bare.2
            have hending : (⟨.failed, some (.inBlock (p.kindOf b).id index x), results⟩ : Ending) = ⟨.failed, e, vs⟩ := by
              change Outcome.done (Ending.mk (if (Error.inBlock (p.kindOf b).id index x).isCancellation then .cancelled
                else .failed) (some (.inBlock (p.kindOf b).id index x)) results) l = _ at h
              rw [hbare] at h
              cases h
              rfl
            cases hending
            exact ⟨b, chain, index, x, l', rfl, hs'.1, hs'.2, fun t => rfl⟩

/-- If a run of standard blocks, blocks without code, calls and placeholders fails, its error names a
    block, which is the one that a run that breaks down where it is stopped first breaks down at. The
    error names that block alone, with the reason for which the block failed by itself, and with its
    position in the chain that it was run in, or -1 if it stood in an argument. -/
theorem failures_blame_the_first_stop (n : Nat) (r : RegistryId) (cs : List ChainId) (cause : Option CancelCause)
    (m : Machine) (G : Realm (m.program.link r cs))
    (hcs : ∀ c ∈ cs, (m.program.link r cs).isMain c = true → G.chains c) {e : Option Error} {results : List Value}
    {k : Machine} (h : worker (invoke n) r cs cause m = .done ⟨.failed, e, results⟩ k) :
    let p := m.program.link r cs
    ∃ (b : BlockId) (chain : Option ChainId) (index : Int) (x : Error) (l : Machine),
      e = some (.inBlock (p.kindOf b).id index x) ∧ x.IsBare ∧ (p.kindOf b).FailsWith x ∧
      p.Stands b chain index ∧ (index = -1 ↔ chain = none) ∧
      ∀ t, worker (invokeWatched ⟨false, some t⟩ n) r cs cause m =
        .done ⟨.fatal, some (t (.block b chain index x)).toError, results⟩ l := by
  intro p
  rw [worker_apply, ← invokeWatched_none] at h
  have hscoped : (m.begun r cs cause).Scoped := rfl
  obtain ⟨b, chain, index, x, l, rfl, hstands, hfails, hwatched⟩ := runMains_blames n G cs hcs [] rfl hscoped h
  refine ⟨b, chain, index, x, l, rfl, hfails.bare, hfails, hstands, ?_, fun t => ?_⟩
  · cases chain with
    | none => exact ⟨fun _ => rfl, fun _ => hstands⟩
    | some c =>
      obtain ⟨i, rfl, -⟩ := hstands
      exact ⟨fun h => absurd h (by omega), nofun⟩
  · rw [worker_apply]
    exact hwatched t

/-- An entry chain that prints two texts joined, the first one from a variable that there is not. -/
def puzzle : Program :=
  { registries := #[{ kinds := Library.standard.toArray }]
    blocks := #[
      ⟨0, ⟨1, 1⟩, 1, [], none, []⟩,
      ⟨0, ⟨10, 1⟩, 10, [.of .argument (.block 2)], none, []⟩,
      ⟨0, ⟨17, 1⟩, 17, [.of .argument (.block 3), .of .argument (.text "!")], some 1, []⟩,
      ⟨0, ⟨13, 1⟩, 13, [.of .argument (.text "who")], some 2, []⟩]
    chains := #[[0, 1]] }

def puzzleIdle : Machine := { program := puzzle, exec := { limits := .standard } }

def puzzleRealm : Realm puzzle where
  chains c := c = 0
  blocks b := b < 4
  listed := by
    rintro c b rfl hb
    exact (by decide : ∀ b ∈ puzzle.chain 0, b < 4) b hb
  kind {b} hb := by
    match b, hb with
    | 0, _ => exact .inr (.of_index 1 (by decide) rfl)
    | 1, _ => exact .inr (.of_index 10 (by decide) rfl)
    | 2, _ => exact .inr (.of_index 17 (by decide) rfl)
    | 3, _ => exact .inr (.of_index 13 (by decide) rfl)
  supported {b x s} hb hx hs := by
    match b, hb with
    | 0, _ => cases hx; cases hs
    | 1, _ => cases hx; cases List.mem_singleton.mp hs; decide
    | 2, _ =>
      cases hx
      rcases List.mem_pair.mp hs with rfl | rfl <;> decide
    | 3, _ => cases hx; cases List.mem_singleton.mp hs; decide
  nested {b x s b'} hb hx hs hp := by
    match b, hb with
    | 0, _ => cases hx; cases hs
    | 1, _ => cases hx; cases List.mem_singleton.mp hs; cases hp; decide
    | 2, _ =>
      cases hx
      rcases List.mem_pair.mp hs with rfl | rfl
      · cases hp; decide
      · cases hp
    | 3, _ => cases hx; cases List.mem_singleton.mp hs; cases hp
  called {b c} hb hr _ := by
    match b, hb with
    | 0, _ => cases hr
    | 1, _ => cases hr
    | 2, _ => cases hr
    | 3, _ => cases hr

/-- The block that fails is two arguments deep, and the error names it and none around it. -/
theorem failures_blame_the_first_stop_puzzle :
    ∃ b k l, (puzzle.kindOf b).id = "get" ∧
      worker (invoke 12) 0 [0] none puzzleIdle =
        .done ⟨.failed, some (.inBlock "get" (-1) (.unknownVariable "who")), []⟩ k ∧
      ∀ t, worker (invokeWatched ⟨false, some t⟩ 12) 0 [0] none puzzleIdle =
        .done ⟨.fatal, some (t (.block b none (-1) (.unknownVariable "who"))).toError, []⟩ l := by
  obtain ⟨k, hk⟩ : ∃ k, worker (invoke 12) 0 [0] none puzzleIdle =
      .done ⟨.failed, some (.inBlock "get" (-1) (.unknownVariable "who")), []⟩ k := ⟨_, rfl⟩
  obtain ⟨b, chain, index, x, l, he, -, -, -, hchain, hwatched⟩ :=
    failures_blame_the_first_stop 12 0 [0] none puzzleIdle puzzleRealm (fun _ hc _ => List.mem_singleton.mp hc) hk
  have hid : (puzzle.kindOf b).id = "get" := (Error.inBlock.inj (Option.some.inj he)).1.symm
  obtain rfl : -1 = index := (Error.inBlock.inj (Option.some.inj he)).2.1
  obtain rfl : .unknownVariable "who" = x := (Error.inBlock.inj (Option.some.inj he)).2.2
  obtain rfl := hchain.mp rfl
  exact ⟨b, k, l, hid, hk, hwatched⟩

end BlockEngine
