/-
  BlockEngine.Proofs.Run.Copies — copies run like their originals.

  Proved of chains of whole blocks, whatever their natives do, for all arguments and on all interpreters:
  - `copies_run_alike`: the copy of a chain runs like the chain, and the copy of a run like the run once that
    is detached. To copy leaves alone all that there was.
  - `not_copies_run_alike`: it is a difference whether a run has been detached if the run calls the chain that
    loses it. Then its copy need not do before what it does afterwards.
-/

import BlockEngine.Library.Control
import BlockEngine.Proofs.Machine.Relate
import BlockEngine.Proofs.Program.Duplicates
import BlockEngine.Proofs.Program.Splicing

namespace BlockEngine

open List (Forall₂)

namespace Program

variable {p q u v : Program} {b c : BlockId}

/-- Blocks and what they hold, their kinds, the order of chains, and definitions: all is as before. -/
structure Preserves (p q : Program) : Prop where
  blocks : ∀ b < p.blocks.size, q.blocks[b]? = p.blocks[b]? ∧ q.kindOf b = p.kindOf b
  chains : ∀ c < p.chains.size, q.chain c = p.chain c
  definitions : ∀ {r h d}, (p.registry r).definition? h = some d → (q.registry r).definition? h = some d

theorem Preserves.slotsOf (h : Preserves p q) (hb : b < p.blocks.size) : q.slotsOf b = p.slotsOf b := by
  rw [Program.slotsOf, (h.blocks b hb).1, Program.slotsOf]

theorem Preserves.outline (h : Preserves p q) {c : ChainId} (hc : c < p.chains.size)
    (hbs : ∀ b ∈ p.chain c, b < p.blocks.size) : q.outline c = p.outline c := by
  rw [Program.outline, h.chains c hc, Program.outline]
  exact List.map_congr_left fun b hb => by rw [(h.blocks b (hbs b hb)).2]

/-- The block is the other one or a copy of it. -/
def Replicates (p q : Program) (c b : BlockId) : Prop := c = b ∨ ∃ n, Mirrors p q p.blocks.size n c b

/-- Blocks are of the kinds that they were and hold what they did. -/
structure Agree (p q : Program) : Prop where
  kindOf : ∀ b, q.kindOf b = p.kindOf b
  slotsOf : ∀ b, q.slotsOf b = p.slotsOf b

theorem Agree.refl (p : Program) : Agree p p := ⟨fun _ => rfl, fun _ => rfl⟩

theorem Relinked.agree (h : Relinked p q) : Agree p q where
  kindOf := kindOf_relinked h
  slotsOf b := by
    obtain ⟨parent, hb⟩ := h.blocks b
    rw [Program.slotsOf, Program.slotsOf, hb]
    cases p.blocks[b]? <;> rfl

/-- Copies are like their originals, wherever both are. -/
theorem Preserves.likeness (h : Preserves p q) (hu : Agree q u) (hv : Agree q v) {shunned : List ChainId}
    {breach : Fault} {E : Fault → Prop} (hchains : ∀ k ∉ shunned, v.chain k = u.chain k) (hE : ∀ k ∈ shunned, E breach) :
    Pairing.Likeness ⟨u, v, E⟩ (Replicates p q) shunned breach where
  kind {c b} hcb := by
    rw [hu.kindOf, hv.kindOf]
    rcases hcb with rfl | ⟨_ | n, hcb⟩
    · rfl
    · exact hcb.elim
    · obtain ⟨⟨-, -, hb⟩, hkind, -⟩ := hcb
      exact (h.blocks b hb).2.trans hkind.symm
  slots {c b} hcb := by
    rw [hu.slotsOf, hv.slotsOf]
    rcases hcb with rfl | ⟨_ | n, hcb⟩
    · exact forall₂_refl (Slot.Like.refl fun _ => .inl rfl) _
    · exact hcb.elim
    · obtain ⟨⟨-, -, hb⟩, -, hslots⟩ := hcb
      rw [h.slotsOf hb]
      exact hslots.imp fun _ _ hlike => hlike.mono fun _ _ hde => .inr ⟨n, hde⟩
  chains {k} hk := by
    rw [hchains k hk]
    exact forall₂_refl (fun _ => .inl rfl) _
  excused := hE _

end Program

open Program

/-! ## Runs in the programs -/

section

open Work

variable {p q s : Program} {t d : ChainId}

/-- Where both chains are in one program, there is no chain that only one of the runs can call. -/
theorem Program.Preserves.runs_alike (h : Preserves p q) (hs : Agree q s)
    (htd : Forall₂ (Replicates p q) (s.chain t) (s.chain d)) {n : Nat} {args : List Value} {m : Machine}
    (hm : m.program = s) : (invoke n t args m).Alike (invoke n d args m) := by
  have L : Pairing.Likeness ⟨s, s, fun _ => False⟩ (Replicates p q) [] (.message []) :=
    h.likeness hs hs (fun _ _ => rfl) nofun
  have hrun := L.invoke_alike htd hm (Outcome.avoids_none (invokeShunning [] (.message []) n t args m))
  rwa [← hm] at hrun

/-- Where each is in a program of its own, the first run is not to call a chain that is another one there. -/
theorem Program.Preserves.runs_alike_of_shuns (h : Preserves p q) (hs : Agree q s)
    (htd : Forall₂ (Replicates p q) (q.chain t) (s.chain d)) {shunned : List ChainId}
    (hchains : ∀ k ∉ shunned, s.chain k = q.chain k) {n : Nat} {args : List Value} {m : Machine} (hm : m.program = q)
    (hshuns : Shuns shunned n t args m) : (invoke n t args m).Alike (invoke n d args { m with program := s }) := by
  obtain ⟨breach, hshuns⟩ := hshuns
  have L : Pairing.Likeness ⟨q, s, (· = breach)⟩ (Replicates p q) shunned breach :=
    h.likeness (.refl q) hs hchains fun _ _ => rfl
  exact L.invoke_alike htd hm hshuns

end

/-! ## Copies of chains -/

namespace Edit

variable {p q : Program} {bs : List BlockId} {c t : ChainId} {i : Int}

/-- Copies of whole blocks are the blocks of a new chain. -/
theorem copyBlocks_preserves (ha : ∀ r, (p.registry r).Arena) (hk : ∀ b < p.blocks.size, p.Known b)
    (hbs : ∀ b ∈ bs, p.Whole b) :
    ∃ q, (copyBlocks bs).run p = (.ok p.chains.size, q) ∧ Preserves p q ∧
      Forall₂ (Replicates p q) (q.chain p.chains.size) bs := by
  obtain ⟨cs, q, hrun, hq, hcs⟩ := copyBlocks_mirrors ha hk hbs
  have hchain : ∀ k, (q.addChain cs).2.chain k = if k = p.chains.size then cs else p.chain k := fun k => by
    rw [chain, addChain, Array.getElem?_push, hq.chains]
    split <;> rfl
  refine ⟨_, hrun, ⟨fun b hb => ⟨hq.old b hb, hq.kindOf (hk b hb)⟩, fun c hc => ?_, fun {r h d} hd => ?_⟩, ?_⟩
  · rw [hchain, if_neg (Nat.ne_of_lt hc)]
  · exact Registry.definition?_grows (ha r) (hq.evolves.registry r) hd
  · rw [hchain, if_pos rfl]
    exact hcs.imp fun c b hcb => .inr (hcb.imp fun n =>
      Mirrors.moved (q := q) (s := (q.addChain cs).2) (fun _ _ hd => ⟨hd, rfl, rfl⟩) (Nat.le_refl _))

theorem copyTail_copies (hne : p.chain c ≠ []) (h : (copyBlocks (p.chain c)).run p = (.ok t, q)) :
    (copyTail c 0).run p = (.ok (.ok t), q) := by
  rw [copyTail, run_bind, run_get]
  dsimp only
  rw [if_neg (by simp [hne]), run_bind, show (p.chain c).drop (0 : Int).toNat = p.chain c from rfl, h]
  rfl

/-- Where no run starts, nothing is copied. -/
theorem copyRun_refused {e : Error} (h : Balance.runEnd (p.outline c) i = .error e) :
    (copyRun c i).run p = (.ok (.error e), p) := by
  rw [copyRun, run_bind, run_get]
  dsimp only
  rw [h]
  rfl

theorem copyRun_copies {stop : Nat} (hstop : Balance.runEnd (p.outline c) i = .ok stop)
    (h : (copyBlocks (((p.chain c).drop i.toNat).take (stop - i.toNat))).run p = (.ok t, q)) :
    (copyRun c i).run p = (.ok (.ok t), q) := by
  rw [copyRun, run_bind, run_get]
  dsimp only
  rw [hstop]
  dsimp only
  rw [run_bind, h]
  rfl

end Edit

open Work in
/-- Let a chain of whole blocks be in a program whose arenas are in order and whose blocks are of kinds that there are.
    - Its copy runs like the chain, with all arguments and on all interpreters.
    - Where no run starts, neither copying nor detaching it does anything.
    - The copy of a run behaves like the chain that the run is detached to, which was empty. It did so before, when the
      run had not been detached, as far as it calls neither that chain nor the one that the run was detached from.
    - To copy changes no block, slot, kind, chain or definition that there was. -/
theorem copies_run_alike (p : Program) (ha : ∀ r, (p.registry r).Arena) (hk : ∀ b < p.blocks.size, p.Known b)
    (c : ChainId) (hne : p.chain c ≠ []) (hwhole : ∀ b ∈ p.chain c, p.Whole b) :
    (∃ t q, (Edit.copyTail c 0).run p = (.ok (.ok t), q) ∧ Preserves p q ∧
      ∀ n args m, m.program = q → (invoke n t args m).Alike (invoke n c args m)) ∧
    ∀ i : Int,
      (∀ e, Balance.runEnd (p.outline c) i = .error e → (Edit.copyRun c i).run p = (.ok (.error e), p) ∧
        ∀ d, (Edit.detach d c i).run p = (.ok (.error e), p)) ∧
      ∀ stop, Balance.runEnd (p.outline c) i = .ok stop →
        ∃ t q, (Edit.copyRun c i).run p = (.ok (.ok t), q) ∧ Preserves p q ∧
          ∀ d < q.chains.size, q.chain d = [] → ∃ s, (Edit.detach d c i).run q = (.ok (.ok ()), s) ∧
            (∀ n args m, m.program = s → (invoke n t args m).Alike (invoke n d args m)) ∧
            ∀ n args m, m.program = q → Shuns [c, d] n t args m →
              (invoke n t args m).Alike (invoke n d args { m with program := s }) := by
  have hc : c < p.chains.size := by
    obtain ⟨b, hb⟩ := List.exists_mem_of_ne_nil _ hne
    exact lt_size_of_mem_chain hb
  refine ⟨?_, fun i => ⟨fun e he => ⟨Edit.copyRun_refused he, fun d => Edit.detach_refused d he⟩, fun stop hstop => ?_⟩⟩
  · obtain ⟨q, hrun, hq, ht⟩ := Edit.copyBlocks_preserves ha hk hwhole
    refine ⟨p.chains.size, q, Edit.copyTail_copies hne hrun, hq, fun n args m hm => ?_⟩
    exact hq.runs_alike (.refl q) (by rwa [hq.chains c hc]) hm
  · have hcut : ∀ b ∈ ((p.chain c).drop i.toNat).take (stop - i.toNat), p.Whole b := fun b hb =>
      hwhole b (List.mem_of_mem_drop (List.mem_of_mem_take hb))
    obtain ⟨q, hrun, hq, ht⟩ := Edit.copyBlocks_preserves ha hk hcut
    refine ⟨p.chains.size, q, Edit.copyRun_copies hstop hrun, hq, fun d hd hempty => ?_⟩
    have hqc := hq.chains c hc
    have hdc : d ≠ c := by
      rintro rfl
      exact hne (hqc.symm.trans hempty)
    have hstop' : Balance.runEnd (q.outline c) i = .ok stop := by
      rwa [hq.outline hc fun b hb => (hwhole b hb).lt_size]
    obtain ⟨s, hdetach, hrelinked, -, hsd, -⟩ := detach_run hdc hd hempty hstop'
    rw [hqc] at hsd
    -- the copy is neither of the two chains
    have htc : p.chains.size ≠ c := Nat.ne_of_gt hc
    have htd : p.chains.size ≠ d := by
      rintro rfl
      rw [hempty] at ht
      have hlength := ht.length_eq
      have hbounds := Balance.runEnd_bounds hstop
      rw [outline, List.length_map] at hbounds
      rw [List.length_take, List.length_drop, List.length_nil] at hlength
      omega
    refine ⟨s, hdetach, fun n args m hm => ?_, fun n args m hm hshuns => ?_⟩
    · exact hq.runs_alike hrelinked.agree (by rwa [chain_detached hdetach htd htc, hsd]) hm
    · refine hq.runs_alike_of_shuns hrelinked.agree (by rwa [hsd]) (fun k hk => ?_) hm hshuns
      obtain ⟨hkc, hkd⟩ : k ≠ c ∧ k ≠ d := by simpa using hk
      exact chain_detached hdetach hkd hkc

/-! ## A procedure that calls itself -/

theorem Outcome.avoids_of_isDone {α : Type} {o : Outcome α} (E : Fault → Prop) (h : o.isDone = true) : o.Avoids E := by
  cases o with
  | done => trivial
  | fault | starved | paused => cases h

theorem Outcome.Alike.isDone {α : Type} {o o' : Outcome α} (h : o.Alike o') : o'.isDone = o.isDone := by
  cases o with
  | done => obtain ⟨k, rfl, -⟩ := h; rfl
  | fault => obtain ⟨k, rfl, -⟩ := h; rfl
  | starved => obtain ⟨k, rfl, -⟩ := h; rfl
  | paused => obtain ⟨k, resume', rfl, -⟩ := h; rfl

/-- A chain that defines a procedure and calls it, and an empty one. -/
def relapse : Program :=
  { registries := #[{
      kinds := #[{ id := "define", type := .hat, inputs := [{ type := .definition }], native := some Library.nop },
        { id := "again", native := some callProcedure, role := .call, owner := some 0 }]
      records := #[⟨1, some ⟨0, 1⟩⟩, ⟨1, some ⟨1, 2⟩⟩] }]
    blocks := #[⟨0, ⟨0, 1⟩, 0, [.of .definition (.definition ⟨1, 1⟩)], none, []⟩, ⟨0, ⟨1, 1⟩, 1, [], none, []⟩]
    chains := #[[0, 1], []] }

theorem relapse_arena (r : RegistryId) : (relapse.registry r).Arena := by
  match r with
  | 0 =>
    have hused : ∀ {i}, i < (relapse.registry 0).records.size → ∃ k, k < 2 ∧
        (relapse.registry 0).held? i = some ⟨k, k + 1⟩ := fun {i} hi => by
      match i, hi with
      | 0, _ => exact ⟨0, by decide, rfl⟩
      | 1, _ => exact ⟨1, by decide, rfl⟩
    refine ⟨.nil, fun i => ⟨nofun, fun h => ?_⟩, fun {i x} hx => ?_, fun {i x} hx => ?_⟩
    · obtain ⟨k, -, hk⟩ := hused h.1
      cases hk.symm.trans h.2
    · obtain ⟨k, -, hk⟩ := hused (Registry.lt_size_of_held? hx)
      cases hk.symm.trans hx
      exact Nat.succ_pos k
    · obtain ⟨k, hlt, hk⟩ := hused (Registry.lt_size_of_held? hx)
      cases hk.symm.trans hx
      exact hlt
  | r + 1 => exact .new

theorem relapse_known : ∀ b < relapse.blocks.size, relapse.Known b := by
  intro b hb
  match b with
  | 0 => exact ⟨_, rfl, by decide⟩
  | 1 => exact ⟨_, rfl, by decide⟩

theorem relapse_whole : ∀ b ∈ relapse.chain 0, relapse.Whole b := by
  have hagain : (relapse.registry 0).Whole ⟨1, 1⟩ := .of _ _ rfl nofun
  refine List.forall_mem_cons.mpr ⟨.of 0 _ rfl ⟨_, rfl⟩ ?_ ?_ ?_, List.forall_mem_singleton.mpr ?_⟩
  · exact List.forall_mem_singleton.mpr nofun
  · refine List.forall_mem_singleton.mpr fun _ _ => ?_
    exact hagain
  · rintro c ⟨x, hx, s, hs, hc⟩
    cases hx
    cases List.mem_singleton.mp hs
    cases hc
  · refine .of 1 _ rfl ⟨_, rfl⟩ nofun nofun ?_
    rintro c ⟨x, hx, s, hs, hc⟩
    cases hx
    cases hs

def narrow (p : Program) : Machine := { program := p, exec := { limits := ⟨9, 9, 9, 2⟩ } }

theorem copies_run_alike_relapse :
    (∀ r, (relapse.registry r).Arena) ∧ (∀ b < relapse.blocks.size, relapse.Known b) ∧ relapse.chain 0 ≠ [] ∧
      (∀ b ∈ relapse.chain 0, relapse.Whole b) ∧ Balance.runEnd (relapse.outline 0) 0 = .ok 1 ∧
      ∃ t q s, (Edit.copyRun 0 0).run relapse = (.ok (.ok t), q) ∧ (Edit.detach 1 0 0).run q = (.ok (.ok ()), s) ∧
        Work.Shuns [0, 1] 9 t [] (narrow q) ∧
        (Work.invoke 9 t [] (narrow q)).Alike (Work.invoke 9 1 [] { narrow q with program := s }) := by
  have hne : relapse.chain 0 ≠ [] := by decide
  have hstop : Balance.runEnd (relapse.outline 0) 0 = .ok 1 := by decide +kernel
  obtain ⟨-, hruns⟩ := copies_run_alike relapse relapse_arena relapse_known 0 hne relapse_whole
  obtain ⟨t, q, hcopy, -, hdetached⟩ := (hruns 0).2 1 hstop
  have ht : ((Edit.copyRun 0 0).run relapse).1 = .ok (.ok 2) := by decide +kernel
  obtain rfl : t = 2 := by
    rw [hcopy] at ht
    cases ht
    rfl
  obtain rfl : ((Edit.copyRun 0 0).run relapse).2 = q := congrArg Prod.snd hcopy
  obtain ⟨s, hdetach, -, hbefore⟩ := hdetached 1 (by decide +kernel) (by decide +kernel)
  have hshuns : Work.Shuns [0, 1] 9 2 [] (narrow ((Edit.copyRun 0 0).run relapse).2) :=
    ⟨.message [], Outcome.avoids_of_isDone _ (by decide +kernel)⟩
  exact ⟨relapse_arena, relapse_known, hne, relapse_whole, hstop, 2, _, s, hcopy, hdetach, hshuns,
    hbefore 9 [] _ rfl hshuns⟩

/-- The program with a copy of the call. -/
def relapsed : Program := ((Edit.copyRun 0 1).run relapse).2

/-- The program with the call in the chain that was empty. -/
def relieved : Program := ((Edit.detach 1 0 1).run relapsed).2

/-- The copy of the call runs into the end of the stack, where the call that was detached returns at once. -/
theorem not_copies_run_alike : ¬ ∀ (p : Program), (∀ r, (p.registry r).Arena) → (∀ b < p.blocks.size, p.Known b) →
    ∀ c, p.chain c ≠ [] → (∀ b ∈ p.chain c, p.Whole b) → ∀ i t q d s, (Edit.copyRun c i).run p = (.ok (.ok t), q) →
      d < q.chains.size → q.chain d = [] → (Edit.detach d c i).run q = (.ok (.ok ()), s) →
      ∀ n args m, m.program = q → (Work.invoke n t args m).Alike (Work.invoke n d args { m with program := s }) := by
  intro h
  have hdone := fun p ha hk c hne hb i t q d s hcopy hd hempty hdetach n args m hm =>
    (h p ha hk c hne hb i t q d s hcopy hd hempty hdetach n args m hm).isDone
  have hcopy : (Edit.copyRun 0 1).run relapse = (.ok (.ok 2), relapsed) := Prod.ext (by decide +kernel) rfl
  have hdetach : (Edit.detach 1 0 1).run relapsed = (.ok (.ok ()), relieved) := Prod.ext (by decide +kernel) rfl
  have hsame := hdone relapse relapse_arena relapse_known 0 (by decide) relapse_whole 1 2 relapsed 1 relieved hcopy
    (by decide +kernel) (by decide +kernel) hdetach 30 [] (narrow relapsed) rfl
  have hfails : (Work.invoke 30 2 [] (narrow relapsed)).isDone = false := by decide +kernel
  have hends : (Work.invoke 30 1 [] { narrow relapsed with program := relieved }).isDone = true := by decide +kernel
  rw [hsame, hfails] at hends
  cases hends

end BlockEngine
