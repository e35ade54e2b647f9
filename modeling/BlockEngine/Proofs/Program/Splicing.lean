/-
  BlockEngine.Proofs.Program.Splicing — blocks on their way from chain to chain.

  Detaching takes the run at a position of one chain to the end of another, and inserting takes all blocks of
  one chain to a position of another. A run is measured by openers and terminators alone. In a chain that nests
  this is enough, and the run is the shortest part that nests from there on (`runLength_shortest`).

  One lemma for each outcome says all that the two do to chains: both may be refused, both move blocks, and
  inserting may break down in between (`Edit.insert_breaks`). The source is emptied first, so a chain that is
  its own source has lost its positions by the time it is written.

  Each chain has a list of its own. Chains that a caller makes of parts of one array are not among these: what
  is appended to the first of them would be written over the second.

  Proved:
  - `detach_insert_inverse`: between two chains, what is detached can be inserted again where it was, and both
    keep chains nested.
  - `splicing_loses_only_self_insertions`: over any sequence of calls no chain loses a block, but for a chain
    that is inserted into itself past its start.
  - `splicing_loses_blocks`: such a chain loses them all.
-/

import BlockEngine.Proofs.Program.Grammar
import BlockEngine.Proofs.Program.Moves
import Mathlib.Algebra.Order.Group.Multiset
import Mathlib.Tactic.Abel

namespace BlockEngine

/-! ## Runs of blocks -/

namespace Balance

variable {depth k : Nat} {t : BlockType} {types rest : List BlockType}

/-- Inside a group the number of open bodies is the one that the length of a run goes by. -/
theorem open?_weight (hk : 0 < k) (t : BlockType) : ∃ n, open? k t = some n ∧ (n : Int) = k + weight t := by
  obtain ⟨k, rfl⟩ := Nat.exists_eq_succ_of_ne_zero (Nat.ne_of_gt hk)
  cases t <;> exact ⟨_, rfl, by simp [weight]⟩

theorem runLength_le (depth : Int) (types : List BlockType) : runLength depth types ≤ types.length := by
  induction types generalizing depth with
  | nil => exact Nat.le_refl _
  | cons t types ih =>
    rw [runLength]
    have hrest := ih (depth + weight t)
    split <;> simp only [List.length_cons] <;> omega

theorem runLength_pos (depth : Int) (t : BlockType) (types : List BlockType) : 0 < runLength depth (t :: types) := by
  rw [runLength]
  split <;> omega

/-- Where the bodies of a sequence are all closed in the end, a run that starts in some of them ends where
    these are closed for the first time. -/
theorem runLength_first (hk : 0 < k) (h : openAfter (depth + k) types = some 0) :
    openAfter k (types.take (runLength k types)) = some 0 ∧
      ∀ m < runLength k types, ∃ n, openAfter k (types.take m) = some (n + 1) := by
  induction types generalizing k with
  | nil =>
    rw [openAfter_nil, Option.some.injEq] at h
    omega
  | cons t types ih =>
    obtain ⟨n, hn, hweight⟩ := open?_weight hk t
    have hstart : ∃ n, openAfter k [] = some (n + 1) := ⟨k - 1, by simp; omega⟩
    rw [openAfter_cons, Nat.add_comm, open?_add hn, Option.bind_some, Nat.add_comm] at h
    rw [runLength]
    rw [← hweight]
    split
    · rename_i hzero
      obtain rfl : n = 0 := by exact_mod_cast hzero
      refine ⟨by simp [hn], fun m hm => ?_⟩
      obtain rfl : m = 0 := by omega
      exact hstart
    · rename_i hpos
      obtain ⟨hclosed, hopen⟩ := ih (Nat.pos_of_ne_zero fun h0 => hpos (by simp [h0])) h
      rw [Nat.add_comm 1]
      refine ⟨by rw [List.take_succ_cons, openAfter_cons, hn]; exact hclosed, fun m hm => ?_⟩
      cases m with
      | zero => exact hstart
      | succ m =>
        rw [List.take_succ_cons, openAfter_cons, hn]
        exact hopen m (Nat.lt_of_succ_lt_succ hm)

/-- In a sequence that nests, a run is the shortest one from its start that nests itself. -/
theorem runLength_shortest (ht : t.closes = false) (h : openAfter depth (t :: rest) = some 0) :
    openAfter 0 ((t :: rest).take (runLength 0 (t :: rest))) = some 0 ∧
      ∀ m, 0 < m → m < runLength 0 (t :: rest) → ∃ n, openAfter 0 ((t :: rest).take m) = some (n + 1) := by
  cases t with
  | normal | hat => exact ⟨rfl, fun m hpos hlt => absurd hlt (Nat.not_lt.mpr hpos)⟩
  | control =>
    obtain ⟨hclosed, hopen⟩ := runLength_first Nat.one_pos h
    have hlength : runLength 0 (.control :: rest) = runLength 1 rest + 1 := Nat.add_comm 1 _
    rw [hlength]
    refine ⟨hclosed, fun m hpos hlt => ?_⟩
    obtain ⟨m, rfl⟩ := Nat.exists_eq_succ_of_ne_zero (Nat.ne_of_gt hpos)
    exact hopen m (Nat.lt_of_succ_lt_succ hlt)
  | continuation | terminator => cases ht

/-- Where the run at a position ends. -/
theorem runEnd_eq_ok_iff {blocks : List (BlockType × Text)} {i : Int} {stop : Nat} :
    runEnd blocks i = .ok stop ↔ 0 ≤ i ∧ ∃ t id, blocks[i.toNat]? = some (t, id) ∧ t.closes = false ∧
      stop = i.toNat + runLength 0 ((blocks.drop i.toNat).map (·.1)) := by
  rw [runEnd]
  split
  · rename_i hnone
    refine iff_of_false nofun ?_
    rintro ⟨hi, t, id, hb, -⟩
    rw [if_pos hi, hb] at hnone
    cases hnone
  · rename_i t id hsome
    have hi : 0 ≤ i := by
      by_contra hi
      rw [if_neg hi] at hsome
      cases hsome
    rw [if_pos hi] at hsome
    rw [hsome]
    split
    · rename_i hcloses
      refine iff_of_false nofun ?_
      rintro ⟨-, t', id', hb, hopen, -⟩
      cases hb
      rw [hcloses] at hopen
      cases hopen
    · rename_i hopen
      rw [Except.ok.injEq]
      refine ⟨fun h => ⟨hi, t, id, rfl, Bool.eq_false_of_not_eq_true hopen, h.symm⟩, ?_⟩
      rintro ⟨-, -, -, -, -, rfl⟩
      rfl

/-- The run at a position of a sequence is not empty and lies in it. -/
theorem runEnd_bounds {blocks : List (BlockType × Text)} {i : Int} {stop : Nat} (h : runEnd blocks i = .ok stop) :
    i.toNat < stop ∧ stop ≤ blocks.length := by
  obtain ⟨-, t, id, hb, -, rfl⟩ := runEnd_eq_ok_iff.mp h
  obtain ⟨hlt, hget⟩ := List.getElem?_eq_some_iff.mp hb
  have hle := runLength_le 0 ((blocks.drop i.toNat).map (·.1))
  have hpos : 0 < runLength 0 ((blocks.drop i.toNat).map (·.1)) := by
    rw [List.drop_eq_getElem_cons hlt, List.map_cons]
    exact runLength_pos _ _ _
  simp only [List.length_map, List.length_drop] at hle
  omega

end Balance

/-! ## What the two operations do to chains -/

namespace Program

variable {p q : Program} {b : BlockId} {c dst src : ChainId} {bs : List BlockId}

theorem kindOf_relinked (h : Relinked p q) (b : BlockId) : q.kindOf b = p.kindOf b := by
  obtain ⟨parent, hb⟩ := h.blocks b
  rw [kindOf, kindOf, hb]
  cases p.blocks[b]? with
  | none => rfl
  | some x =>
    show (q.registry x.registry).kind x.kind = (p.registry x.registry).kind x.kind
    rw [registry, registry, h.registries]

theorem types_relinked (h : Relinked p q) (c : ChainId) : q.types c = (q.chain c).map fun b => (p.kindOf b).type := by
  simp only [types, kindOf_relinked h]

theorem chains_relinkTree (n : Nat) (b : BlockId) (parent : Option BlockId) (p : Program) :
    (relinkTree n b parent p).chains = p.chains := by
  induction n generalizing b parent p with
  | zero => rfl
  | succ n ih =>
    rw [relinkTree]
    split
    · rfl
    · refine foldl_rel (R := fun p q => q.chains = p.chains) (fun _ => rfl) (fun h h' => h'.trans h) (fun q s => ?_) _ _
      split
      · exact ih _ _ _
      · rfl

theorem chains_detachAll (bs : List BlockId) (p : Program) : (p.detachAll bs).chains = p.chains :=
  foldl_rel (R := fun p q => q.chains = p.chains) (fun _ => rfl) (fun h h' => h'.trans h)
    (fun p b => chains_relinkTree _ b none p) bs p

theorem chain_congr (h : q.chains = p.chains) (c : ChainId) : q.chain c = p.chain c := by rw [chain, h, chain]

theorem chain_setChain (p : Program) (c k : ChainId) (bs : List BlockId) :
    (p.setChain c bs).chain k = if k = c ∧ c < p.chains.size then bs else p.chain k := by
  simp only [chain, setChain, Array.getElem?_setIfInBounds]
  by_cases hk : c = k
  · subst hk
    by_cases hc : c < p.chains.size <;> simp [hc]
  · simp [hk, Ne.symm hk]

@[simp] theorem size_setChain (p : Program) (c : ChainId) (bs : List BlockId) :
    (p.setChain c bs).chains.size = p.chains.size := Array.size_setIfInBounds

end Program

namespace Edit

open Program

variable {p : Program} {dst src : ChainId} {i : Int}

/-- A position that is not one of the destination's is refused. -/
theorem insert_refused (h : i < 0 ∨ (p.chain dst).length < i) :
    (insert dst src i).run p = (.ok (.error (.outOfRange i)), p) := by
  rw [insert, run_bind, run_get]
  dsimp only
  rw [if_pos h]
  rfl

/-- Once the source is emptied, the destination may have lost the position. -/
theorem insert_breaks (h : 0 ≤ i ∧ i ≤ (p.chain dst).length) (hlost : ((p.setChain src []).chain dst).length < i) :
    (insert dst src i).run p = (.error (.error (.access (.segment i.toNat 0))), p.setChain src []) := by
  rw [insert, run_bind, run_get]
  dsimp only
  rw [if_neg (by omega), run_bind, run_modify]
  dsimp only
  rw [run_bind, run_get]
  dsimp only
  rw [if_pos hlost]
  rfl

/-- The blocks of the source go to a position that the destination has when the source is empty. -/
theorem insert_moves (h : 0 ≤ i ∧ i ≤ (p.chain dst).length) (src : ChainId)
    (hkept : i ≤ ((p.setChain src []).chain dst).length) :
    ∃ q, (insert dst src i).run p = (.ok (.ok ()), q) ∧ Relinked p q ∧
      let rest := (p.setChain src []).chain dst
      q.chains = ((p.setChain src []).setChain dst (rest.take i.toNat ++ p.chain src ++ rest.drop i.toNat)).chains := by
  have hrelinked := relinks_insert dst src i p
  have hrun : ∃ q, (insert dst src i).run p = (.ok (.ok ()), q) ∧
      let rest := (p.setChain src []).chain dst
      q.chains = ((p.setChain src []).setChain dst (rest.take i.toNat ++ p.chain src ++ rest.drop i.toNat)).chains := by
    rw [insert, run_bind, run_get]
    dsimp only
    rw [if_neg (by omega), run_bind, run_modify]
    dsimp only
    rw [run_bind, run_get]
    dsimp only
    rw [if_neg (by omega), run_bind, run_modify]
    exact ⟨_, rfl, chains_detachAll _ _⟩
  obtain ⟨q, hrun, hchains⟩ := hrun
  rw [hrun] at hrelinked
  exact ⟨q, hrun, hrelinked, hchains⟩

/-- Where no run starts, nothing is detached. -/
theorem detach_refused (dst : ChainId) {e : Error} (h : Balance.runEnd (p.outline src) i = .error e) :
    (detach dst src i).run p = (.ok (.error e), p) := by
  rw [detach, run_bind, run_get]
  dsimp only
  rw [h]
  rfl

/-- The run at a position goes from the source to the end of the destination. -/
theorem detach_moves (dst : ChainId) {stop : Nat} (h : Balance.runEnd (p.outline src) i = .ok stop) :
    ∃ q, (detach dst src i).run p = (.ok (.ok ()), q) ∧ Relinked p q ∧
      let rest := p.setChain src ((p.chain src).take i.toNat ++ (p.chain src).drop stop)
      q.chains = (rest.setChain dst (rest.chain dst ++ ((p.chain src).drop i.toNat).take (stop - i.toNat))).chains := by
  have hrelinked := relinks_detach dst src i p
  have hrun : ∃ q, (detach dst src i).run p = (.ok (.ok ()), q) ∧
      let rest := p.setChain src ((p.chain src).take i.toNat ++ (p.chain src).drop stop)
      q.chains = (rest.setChain dst (rest.chain dst ++ ((p.chain src).drop i.toNat).take (stop - i.toNat))).chains := by
    rw [detach, run_bind, run_get]
    dsimp only
    rw [h]
    dsimp only
    rw [run_bind, run_modify]
    dsimp only
    rw [run_bind, run_append]
    dsimp only
    rw [run_bind, run_modify]
    refine ⟨_, rfl, (chains_detachAll _ _).trans ?_⟩
    simp only [setChain, chain, chains_detachAll]
  obtain ⟨q, hrun, hchains⟩ := hrun
  rw [hrun] at hrelinked
  exact ⟨q, hrun, hrelinked, hchains⟩

end Edit

/-! ## Detaching and inserting -/

namespace Balance

/-- Blocks that nest may stand anywhere. -/
theorem openAfter_splice {middle : List BlockType} (h : openAfter 0 middle = some 0) (depth : Nat)
    (before after : List BlockType) : openAfter depth (before ++ middle ++ after) = openAfter depth (before ++ after) := by
  rw [openAfter_append, openAfter_append, openAfter_append]
  cases hb : openAfter depth before with
  | none => rfl
  | some n =>
    have hmiddle := openAfter_add h n
    rw [Nat.zero_add] at hmiddle
    rw [Option.bind_some, hmiddle]

end Balance

namespace Program

open Balance

variable {p q : Program} {c dst src : ChainId} {i : Int}

/-- What is cut out of a list stands between what is left of it. -/
theorem take_append_cut {α : Type} (l : List α) {i stop : Nat} (h : i ≤ stop) :
    l.take i ++ (l.drop i).take (stop - i) ++ l.drop stop = l := by
  have hrest : l.drop stop = (l.drop i).drop (stop - i) := by rw [List.drop_drop, Nat.add_sub_cancel' h]
  rw [List.append_assoc, hrest, List.take_append_drop, List.take_append_drop]

/-- What was cut out of a list is put back. -/
theorem restore_cut {α : Type} (l : List α) {i stop : Nat} (h : i ≤ stop) (hstop : stop ≤ l.length) :
    (l.take i ++ l.drop stop).take i ++ (l.drop i).take (stop - i) ++ (l.take i ++ l.drop stop).drop i = l := by
  have hlength : (l.take i).length = i := by rw [List.length_take]; omega
  rw [List.take_left' hlength, List.drop_left' hlength, take_append_cut l h]

/-- A run of blocks starts at a position of a chain: there is a block, and it closes no body. -/
def StartsRun (p : Program) (c : ChainId) (i : Int) : Prop :=
  0 ≤ i ∧ ∃ b, (p.chain c)[i.toNat]? = some b ∧ (p.kindOf b).type.closes = false

theorem startsRun_iff : p.StartsRun c i ↔ ∃ stop, runEnd (p.outline c) i = .ok stop := by
  simp only [runEnd_eq_ok_iff, StartsRun, outline, List.getElem?_map, Option.map_eq_some_iff, Prod.mk.injEq]
  constructor
  · rintro ⟨hi, b, hb, hopen⟩
    exact ⟨_, hi, _, _, ⟨b, hb, rfl, rfl⟩, hopen, rfl⟩
  · rintro ⟨-, hi, -, -, ⟨b, hb, rfl, rfl⟩, hopen, -⟩
    exact ⟨hi, b, hb, hopen⟩

theorem lt_size_of_mem_chain {b : BlockId} (h : b ∈ p.chain c) : c < p.chains.size := by
  by_contra hlt
  rw [chain, Array.getElem?_eq_none (Nat.not_lt.mp hlt)] at h
  cases h

theorem StartsRun.lt_size (h : p.StartsRun c i) : c < p.chains.size := by
  obtain ⟨-, b, hb, -⟩ := h
  exact lt_size_of_mem_chain (List.mem_of_getElem? hb)

theorem validate_eq_none_iff : p.validate c = none ↔ openAfter 0 (p.types c) = some 0 := by
  rw [validate, check_eq_none_iff, outline_types]

/-- The run that starts at a position of a chain that nests is the shortest one that nests. -/
theorem run_nests {stop : Nat} (hp : p.validate c = none) (h : runEnd (p.outline c) i = .ok stop) :
    openAfter 0 (((p.types c).drop i.toNat).take (stop - i.toNat)) = some 0 ∧
      ∀ m, 0 < m → m < stop - i.toNat → ∃ n, openAfter 0 (((p.types c).drop i.toNat).take m) = some (n + 1) := by
  obtain ⟨-, t, id, hb, hopen, rfl⟩ := runEnd_eq_ok_iff.mp h
  have ht : (p.types c)[i.toNat]? = some t := by rw [← outline_types, List.getElem?_map, hb]; rfl
  rw [List.map_drop, outline_types, Nat.add_sub_cancel_left]
  rw [validate_eq_none_iff, ← List.take_append_drop i.toNat (p.types c), openAfter_append] at hp
  obtain ⟨d, -, hd⟩ := Option.bind_eq_some_iff.mp hp
  obtain ⟨hlt, rfl⟩ := List.getElem?_eq_some_iff.mp ht
  rw [List.drop_eq_getElem_cons hlt] at hd ⊢
  exact runLength_shortest hopen hd

/-- A run goes to an empty chain. -/
theorem detach_run (hne : dst ≠ src) (hdst : dst < p.chains.size) (hempty : p.chain dst = []) {stop : Nat}
    (h : runEnd (p.outline src) i = .ok stop) :
    ∃ q, (Edit.detach dst src i).run p = (.ok (.ok ()), q) ∧ Relinked p q ∧ q.chains.size = p.chains.size ∧
      q.chain dst = ((p.chain src).drop i.toNat).take (stop - i.toNat) ∧
      q.chain src = (p.chain src).take i.toNat ++ (p.chain src).drop stop := by
  have hsrc := (startsRun_iff.mpr ⟨stop, h⟩).lt_size
  obtain ⟨q, hrun, hrelinked, hchains⟩ := Edit.detach_moves dst h
  refine ⟨q, hrun, hrelinked, by rw [hchains, size_setChain, size_setChain], ?_, ?_⟩
  · rw [chain_congr hchains, chain_setChain, if_pos ⟨rfl, by simpa using hdst⟩, chain_setChain,
      if_neg fun h => hne h.1, hempty, List.nil_append]
  · rw [chain_congr hchains, chain_setChain, if_neg fun h => hne h.1.symm, chain_setChain, if_pos ⟨rfl, hsrc⟩]

/-- Other chains have no part in it. -/
theorem chain_detached {k : ChainId} (h : (Edit.detach dst src i).run p = (.ok (.ok ()), q)) (hdst : k ≠ dst)
    (hsrc : k ≠ src) : q.chain k = p.chain k := by
  cases hstop : runEnd (p.outline src) i with
  | error e => cases h.symm.trans (Edit.detach_refused dst hstop)
  | ok stop =>
    obtain ⟨q', hrun, -, hchains⟩ := Edit.detach_moves dst hstop
    cases h.symm.trans hrun
    rw [chain_congr hchains, chain_setChain, if_neg fun h => hdst h.1, chain_setChain, if_neg fun h => hsrc h.1]

/-- Where a run leaves a chain that nests, both nest. -/
theorem detached_nests {stop : Nat} (hp : p.validate src = none) (h : runEnd (p.outline src) i = .ok stop)
    (hrelinked : Relinked p q) (hdst : q.chain dst = ((p.chain src).drop i.toNat).take (stop - i.toNat))
    (hsrc : q.chain src = (p.chain src).take i.toNat ++ (p.chain src).drop stop) :
    q.validate dst = none ∧ q.validate src = none := by
  obtain ⟨hnests, -⟩ := run_nests hp h
  have htdst : q.types dst = ((p.types src).drop i.toNat).take (stop - i.toNat) := by
    rw [types_relinked hrelinked, hdst, List.map_take, List.map_drop]
    rfl
  have htsrc : q.types src = (p.types src).take i.toNat ++ (p.types src).drop stop := by
    rw [types_relinked hrelinked, hsrc, List.map_append, List.map_take, List.map_drop]
    rfl
  refine ⟨validate_eq_none_iff.mpr (htdst ▸ hnests), ?_⟩
  rw [validate_eq_none_iff, htsrc, ← openAfter_splice hnests, take_append_cut _ (Nat.le_of_lt (runEnd_bounds h).1)]
  exact validate_eq_none_iff.mp hp

/-- The blocks of a chain go to a position of another one. -/
theorem insert_chain (hne : dst ≠ src) (hdst : dst < p.chains.size) (hi : 0 ≤ i ∧ i ≤ (p.chain dst).length) :
    ∃ q, (Edit.insert dst src i).run p = (.ok (.ok ()), q) ∧ Relinked p q ∧
      q.chain dst = (p.chain dst).take i.toNat ++ p.chain src ++ (p.chain dst).drop i.toNat ∧ q.chain src = [] := by
  have hrest : (p.setChain src []).chain dst = p.chain dst := by rw [chain_setChain, if_neg fun h => hne h.1]
  obtain ⟨q, hrun, hrelinked, hchains⟩ := Edit.insert_moves hi src (by rw [hrest]; exact hi.2)
  refine ⟨q, hrun, hrelinked, ?_, ?_⟩
  · rw [chain_congr hchains, chain_setChain, if_pos ⟨rfl, by simpa using hdst⟩, hrest]
  · rw [chain_congr hchains, chain_setChain, if_neg fun h => hne h.1.symm, chain_setChain]
    split
    · rfl
    · rename_i hsrc
      simp [chain, Array.getElem?_eq_none (Nat.not_lt.mp fun hlt => hsrc ⟨rfl, hlt⟩)]

/-- A chain that nests may take another one that does anywhere. -/
theorem inserted_nests (hrelinked : Relinked p q) (hdst : p.validate dst = none) (hsrc : p.validate src = none)
    (h : q.chain dst = (p.chain dst).take i.toNat ++ p.chain src ++ (p.chain dst).drop i.toNat) :
    q.validate dst = none := by
  have htypes : q.types dst = (p.types dst).take i.toNat ++ p.types src ++ (p.types dst).drop i.toNat := by
    rw [types_relinked hrelinked, h]
    simp only [types, List.map_append, List.map_take, List.map_drop]
  rw [validate_eq_none_iff, htypes, openAfter_splice (validate_eq_none_iff.mp hsrc), List.take_append_drop]
  exact validate_eq_none_iff.mp hdst

end Program

open Balance Program

/-- Between two chains, detaching and inserting are inverse and keep chains nested.
    - A run is detached wherever a block stands that closes no body. Anywhere else detaching is refused, and
      nothing has changed.
    - An empty chain takes over the run, and the rest stays in order. Inserted at the same position the run
      is where it was, and the chain that had it is empty again.
    - Of a chain that nests the run is the shortest part from the position that nests, and so does the rest.
    - A chain that nests takes another one that does at any of its positions, and still nests. -/
theorem detach_insert_inverse (p : Program) (dst src : ChainId) (hne : dst ≠ src) (hdst : dst < p.chains.size) (i : Int) :
    ((∃ q, (Edit.detach dst src i).run p = (.ok (.ok ()), q)) ↔ p.StartsRun src i) ∧
    (¬ p.StartsRun src i → ∃ e, (Edit.detach dst src i).run p = (.ok (.error e), p)) ∧
    (p.chain dst = [] → ∀ q, (Edit.detach dst src i).run p = (.ok (.ok ()), q) →
      ∃ stop, i.toNat < stop ∧ stop ≤ (p.chain src).length ∧
        q.chain dst = ((p.chain src).drop i.toNat).take (stop - i.toNat) ∧
        q.chain src = (p.chain src).take i.toNat ++ (p.chain src).drop stop ∧
        (∃ s, (Edit.insert src dst i).run q = (.ok (.ok ()), s) ∧ s.chain src = p.chain src ∧ s.chain dst = []) ∧
        (p.validate src = none → q.validate dst = none ∧ q.validate src = none ∧
          ∀ m, 0 < m → m < stop - i.toNat → check (((p.outline src).drop i.toNat).take m) ≠ none)) ∧
    (p.validate dst = none → p.validate src = none → 0 ≤ i → i ≤ (p.chain dst).length →
      ∃ q, (Edit.insert dst src i).run p = (.ok (.ok ()), q) ∧ q.validate dst = none ∧
        q.chain dst = (p.chain dst).take i.toNat ++ p.chain src ++ (p.chain dst).drop i.toNat ∧ q.chain src = []) := by
  have hrefused : ¬ p.StartsRun src i → ∃ e, (Edit.detach dst src i).run p = (.ok (.error e), p) := by
    intro hstart
    cases h : runEnd (p.outline src) i with
    | ok stop => exact (hstart (startsRun_iff.mpr ⟨stop, h⟩)).elim
    | error e => exact ⟨e, Edit.detach_refused dst h⟩
  have hstarts : ∀ q, (Edit.detach dst src i).run p = (.ok (.ok ()), q) → p.StartsRun src i := by
    intro q hrun
    by_contra hstart
    obtain ⟨e, he⟩ := hrefused hstart
    cases hrun.symm.trans he
  refine ⟨⟨fun hrun => hrun.elim hstarts, fun hstart => ?_⟩, hrefused, fun hempty q hrun => ?_, ?_⟩
  · obtain ⟨stop, hstop⟩ := startsRun_iff.mp hstart
    obtain ⟨q, hrun, -⟩ := Edit.detach_moves dst hstop
    exact ⟨q, hrun⟩
  · have hstart := hstarts q hrun
    obtain ⟨stop, hstop⟩ := startsRun_iff.mp hstart
    obtain ⟨hlt, hle⟩ := runEnd_bounds hstop
    rw [outline, List.length_map] at hle
    obtain ⟨q', hrun', hrelinked, hsize, hqdst, hqsrc⟩ := detach_run hne hdst hempty hstop
    cases hrun.symm.trans hrun'
    refine ⟨stop, hlt, hle, hqdst, hqsrc, ?_, fun hvalid => ?_⟩
    · have hi : 0 ≤ i ∧ i ≤ (q.chain src).length := by
        rw [hqsrc, List.length_append, List.length_take]
        have := hstart.1
        omega
      obtain ⟨s, hinsert, -, hssrc, hsdst⟩ := insert_chain hne.symm (hsize ▸ hstart.lt_size) hi
      refine ⟨s, hinsert, ?_, hsdst⟩
      rw [hssrc, hqsrc, hqdst]
      exact restore_cut _ (Nat.le_of_lt hlt) hle
    · obtain ⟨hvdst, hvsrc⟩ := detached_nests hvalid hstop hrelinked hqdst hqsrc
      refine ⟨hvdst, hvsrc, fun m hpos hm => ?_⟩
      obtain ⟨n, hn⟩ := (run_nests hvalid hstop).2 m hpos hm
      rw [ne_eq, check_eq_none_iff, List.map_take, List.map_drop, outline_types, hn]
      exact fun hclosed => Nat.succ_ne_zero n (Option.some.inj hclosed)
  · intro hvdst hvsrc hlow hhigh
    obtain ⟨q, hrun, hrelinked, hqdst, hqsrc⟩ := insert_chain hne hdst ⟨hlow, hhigh⟩
    exact ⟨q, hrun, inserted_nests hrelinked hvdst hvsrc hqdst, hqdst, hqsrc⟩

/-- A program with two chains: the first is empty, the second has a group with two branches between two plain
    blocks. -/
def workbench : Program :=
  let place (k : KindId) : Block := { registry := 0, handle := .zero, kind := k, slots := [], parent := none }
  { registries := #[{ kinds := #[{ id := [] }, { id := [], type := .control }, { id := [], type := .continuation },
      { id := [], type := .terminator }] }]
    blocks := #[place 0, place 1, place 2, place 0, place 3, place 0]
    chains := #[[], [0, 1, 2, 3, 4, 5]] }

theorem detach_insert_inverse_group :
    let q := ((Edit.detach 0 1 1).run workbench).2
    (0 : ChainId) ≠ 1 ∧ 0 < workbench.chains.size ∧ q.chain 0 = [1, 2, 3, 4] ∧ q.validate 0 = none ∧ q.validate 1 = none ∧
      ∃ s, (Edit.insert 1 0 1).run q = (.ok (.ok ()), s) ∧ s.chain 1 = [0, 1, 2, 3, 4, 5] ∧ s.chain 0 = [] := by
  intro q
  obtain ⟨hstarts, -, hdetached, -⟩ := detach_insert_inverse workbench 0 1 (by decide) (by decide) 1
  obtain ⟨q', hrun⟩ := hstarts.mpr ⟨by decide, 1, rfl, by decide⟩
  obtain rfl : q = q' := congrArg Prod.snd hrun
  obtain ⟨stop, -, -, -, -, hrestored, hnested⟩ := hdetached rfl q hrun
  obtain ⟨hdst, hsrc, -⟩ := hnested (by decide)
  exact ⟨by decide, by decide, by decide, hdst, hsrc, hrestored⟩

/-! ## Blocks over all chains -/

namespace Program

/-- By emptying the source, only a chain that is its own source loses positions, which are all but its start. -/
theorem length_emptied_lt_iff {p : Program} {dst src : ChainId} {i : Int} (hsrc : src < p.chains.size)
    (h : 0 ≤ i ∧ i ≤ (p.chain dst).length) :
    ((p.setChain src []).chain dst).length < i ↔ dst = src ∧ 0 < i := by
  rw [chain_setChain]
  by_cases hself : dst = src
  · rw [if_pos ⟨hself, hsrc⟩]
    simp [hself]
  · rw [if_neg fun h => hself h.1]
    exact iff_of_false (by omega) fun h => hself h.1

open Finset

def listed (p : Program) : Multiset BlockId := ∑ c ∈ range p.chains.size, (p.chain c : Multiset BlockId)

theorem listed_congr {p q : Program} (h : q.chains = p.chains) : q.listed = p.listed := by
  simp only [listed, chain_congr h, h]

/-- A chain gives up its blocks for others. -/
theorem listed_setChain {p : Program} {c : ChainId} (hc : c < p.chains.size) (bs : List BlockId) :
    (p.setChain c bs).listed + (p.chain c : Multiset BlockId) = p.listed + (bs : Multiset BlockId) := by
  have hmem : c ∈ range p.chains.size := mem_range.mpr hc
  have hrest : ∑ k ∈ (range p.chains.size).erase c, ((p.setChain c bs).chain k : Multiset BlockId) =
      ∑ k ∈ (range p.chains.size).erase c, (p.chain k : Multiset BlockId) :=
    sum_congr rfl fun k hk => by rw [chain_setChain, if_neg fun h => ne_of_mem_erase hk h.1]
  rw [listed, listed, size_setChain, ← add_sum_erase _ _ hmem, ← add_sum_erase _ _ hmem, hrest, chain_setChain,
    if_pos ⟨rfl, hc⟩]
  abel

variable {p : Program} {dst src : ChainId}

/-- The blocks of a chain that is emptied first go to some position of a chain. -/
theorem listed_inserted (hdst : dst < p.chains.size) (hsrc : src < p.chains.size) (i : Nat) :
    let rest := (p.setChain src []).chain dst
    ((p.setChain src []).setChain dst (rest.take i ++ p.chain src ++ rest.drop i)).listed = p.listed := by
  intro rest
  have hemptied := listed_setChain hsrc []
  have hfilled := listed_setChain (p := p.setChain src []) (by simpa using hdst) (rest.take i ++ p.chain src ++ rest.drop i)
  have hsplice : ((rest.take i ++ p.chain src ++ rest.drop i : List BlockId) : Multiset BlockId) =
      (rest : Multiset BlockId) + (p.chain src : Multiset BlockId) := by
    conv_rhs => rw [← List.take_append_drop i rest]
    simp only [← Multiset.coe_add]
    abel
  refine add_right_cancel (b := (rest : Multiset BlockId)) (hfilled.trans ?_)
  rw [hsplice, ← add_assoc, add_right_comm, hemptied, Multiset.coe_nil, add_zero]

/-- The blocks of a run that is cut out first go to the end of a chain. -/
theorem listed_detached (hdst : dst < p.chains.size) (hsrc : src < p.chains.size) {i stop : Nat} (h : i ≤ stop) :
    let rest := p.setChain src ((p.chain src).take i ++ (p.chain src).drop stop)
    (rest.setChain dst (rest.chain dst ++ ((p.chain src).drop i).take (stop - i))).listed = p.listed := by
  intro rest
  have hcut := listed_setChain hsrc ((p.chain src).take i ++ (p.chain src).drop stop)
  have hfilled := listed_setChain (p := rest) (by simpa [rest] using hdst)
    (rest.chain dst ++ ((p.chain src).drop i).take (stop - i))
  have hsplit : (p.chain src : Multiset BlockId) = (((p.chain src).drop i).take (stop - i) : Multiset BlockId) +
      ((p.chain src).take i ++ (p.chain src).drop stop : List BlockId) := by
    conv_lhs => rw [← take_append_cut (p.chain src) h]
    simp only [← Multiset.coe_add]
    abel
  rw [hsplit, ← add_assoc] at hcut
  rw [← Multiset.coe_add, add_left_comm, add_right_cancel hcut, add_comm] at hfilled
  exact add_left_cancel hfilled

end Program

inductive Splice where
  | insert (dst src : ChainId) (i : Int)
  | detach (dst src : ChainId) (i : Int)

namespace Splice

open Program

def edit : Splice → Edit (Except Error Unit)
  | insert dst src i => Edit.insert dst src i
  | detach dst src i => Edit.detach dst src i

def Names (n : Nat) : Splice → Prop
  | insert dst src _ | detach dst src _ => dst < n ∧ src < n

/-- The blocks that are lost: a chain that is inserted into itself past its start is emptied first, and then
    has no such position any more. -/
def swallowed (p : Program) : Splice → List BlockId
  | insert dst src i => if dst = src ∧ 0 < i ∧ i ≤ (p.chain dst).length then p.chain dst else []
  | detach .. => []

variable {p : Program} {s : Splice}

/-- What is not lost is in some chain as often as before, and what fails without a loss has changed nothing. -/
theorem keeps_blocks (hs : s.Names p.chains.size) :
    (s.edit.run p).2.listed + (s.swallowed p : Multiset BlockId) = p.listed ∧
      (s.edit.run p).2.chains.size = p.chains.size ∧
      (s.swallowed p = [] → (s.edit.run p).1 ≠ .ok (.ok ()) → (s.edit.run p).2 = p) := by
  cases s with
  | insert dst src i =>
    obtain ⟨hdst, hsrc⟩ := hs
    simp only [edit, swallowed]
    by_cases hi : i < 0 ∨ (p.chain dst).length < i
    · rw [Edit.insert_refused hi, if_neg (by omega)]
      exact ⟨add_zero _, rfl, fun _ _ => rfl⟩
    · have hbounds : 0 ≤ i ∧ i ≤ (p.chain dst).length := by omega
      by_cases hself : dst = src ∧ 0 < i
      · obtain ⟨rfl, hpos⟩ := hself
        rw [Edit.insert_breaks hbounds ((length_emptied_lt_iff hsrc hbounds).mpr ⟨rfl, hpos⟩),
          if_pos ⟨rfl, hpos, hbounds.2⟩]
        refine ⟨(listed_setChain hsrc []).trans (add_zero _), size_setChain _ _ _, fun hnone => ?_⟩
        rw [hnone, List.length_nil] at hbounds
        omega
      · have hkept := not_lt.mp (mt (length_emptied_lt_iff hsrc hbounds).mp hself)
        obtain ⟨q, hrun, -, hchains⟩ := Edit.insert_moves hbounds src hkept
        rw [hrun, if_neg fun h => hself ⟨h.1, h.2.1⟩]
        refine ⟨?_, by simp [hchains], fun _ hok => absurd rfl hok⟩
        exact (add_zero _).trans ((listed_congr hchains).trans (listed_inserted hdst hsrc _))
  | detach dst src i =>
    obtain ⟨hdst, hsrc⟩ := hs
    simp only [edit, swallowed]
    cases h : Balance.runEnd (p.outline src) i with
    | error e =>
      rw [Edit.detach_refused dst h]
      exact ⟨add_zero _, rfl, fun _ _ => rfl⟩
    | ok stop =>
      obtain ⟨q, hrun, -, hchains⟩ := Edit.detach_moves dst h
      rw [hrun]
      refine ⟨?_, by simp [hchains], fun _ hok => absurd rfl hok⟩
      have hle := Nat.le_of_lt (Balance.runEnd_bounds h).1
      exact (add_zero _).trans ((listed_congr hchains).trans (listed_detached hdst hsrc hle))

/-- A chain is lost exactly by being inserted into itself past its start, and the call breaks down. -/
theorem swallows_insert {c : ChainId} {i : Int} (hc : c < p.chains.size) (h : 0 < i ∧ i ≤ (p.chain c).length) :
    (insert c c i).edit.run p = (.error (.error (.access (.segment i.toNat 0))), p.setChain c []) := by
  have hbounds : 0 ≤ i ∧ i ≤ (p.chain c).length := ⟨Int.le_of_lt h.1, h.2⟩
  exact Edit.insert_breaks hbounds ((length_emptied_lt_iff hc hbounds).mpr ⟨rfl, h.1⟩)

theorem swallowed_eq_nil (h : ∀ c i, s = insert c c i → ¬ (0 < i ∧ i ≤ (p.chain c).length)) : s.swallowed p = [] := by
  cases s with
  | insert dst src i =>
    refine if_neg ?_
    rintro ⟨rfl, hi⟩
    exact h dst i rfl hi
  | detach => rfl

end Splice

namespace Program

def spliced (p : Program) (calls : List Splice) : Program := calls.foldl (fun q s => (s.edit.run q).2) p

/-- The blocks that a sequence of operations loses. -/
def lost (p : Program) : List Splice → Multiset BlockId
  | [] => 0
  | s :: calls => (s.swallowed p : Multiset BlockId) + lost (s.edit.run p).2 calls

variable {p : Program} {calls : List Splice}

theorem spliced_keeps_blocks (h : ∀ s ∈ calls, s.Names p.chains.size) :
    (p.spliced calls).listed + p.lost calls = p.listed ∧ (p.spliced calls).chains.size = p.chains.size := by
  induction calls generalizing p with
  | nil => exact ⟨add_zero _, rfl⟩
  | cons s calls ih =>
    obtain ⟨hs, hcalls⟩ := List.forall_mem_cons.mp h
    obtain ⟨hstep, hsize, -⟩ := Splice.keeps_blocks hs
    obtain ⟨hrun, hsize'⟩ := ih fun s' hs' => by rw [hsize]; exact hcalls s' hs'
    refine ⟨?_, hsize'.trans hsize⟩
    rw [← hstep, ← hrun, lost, add_comm (s.swallowed p : Multiset BlockId), ← add_assoc]
    rfl

theorem lost_eq_zero (h : ∀ c i, 0 < i → .insert c c i ∉ calls) : p.lost calls = 0 := by
  induction calls generalizing p with
  | nil => rfl
  | cons s calls ih =>
    have hs : s.swallowed p = [] :=
      Splice.swallowed_eq_nil fun c i hins hi => h c i hi.1 (hins ▸ List.mem_cons_self)
    rw [lost, hs, ih fun c i hi hmem => h c i hi (List.mem_cons_of_mem _ hmem)]
    rfl

end Program

/-- Where chains have lists of their own, splicing loses blocks in one way only, which is to insert a chain
    into itself past its start.
    - Over any sequence of insertions and detachings, what the chains list and what is lost add up to what the
      chains listed in the beginning. Without such an insertion nothing is lost.
    - After any such sequence, that insertion breaks down in the middle and leaves the chain empty. Any other
      operation that does not succeed has changed nothing. -/
theorem splicing_loses_only_self_insertions (p : Program) (calls : List Splice) (h : ∀ s ∈ calls, s.Names p.chains.size) :
    (p.spliced calls).listed + p.lost calls = p.listed ∧
    ((∀ c i, 0 < i → .insert c c i ∉ calls) → (p.spliced calls).listed = p.listed) ∧
    ∀ s : Splice, s.Names p.chains.size →
      let q := p.spliced calls
      (∀ c i, s = .insert c c i → 0 < i ∧ i ≤ (q.chain c).length →
        s.edit.run q = (.error (.error (.access (.segment i.toNat 0))), q.setChain c [])) ∧
      ((∀ c i, s = .insert c c i → ¬ (0 < i ∧ i ≤ (q.chain c).length)) →
        (s.edit.run q).1 ≠ .ok (.ok ()) → (s.edit.run q).2 = q) := by
  obtain ⟨hkept, hsize⟩ := spliced_keeps_blocks h
  refine ⟨hkept, fun hself => ?_, fun s hs => ⟨?_, fun hself hfail => ?_⟩⟩
  · rw [lost_eq_zero hself, add_zero] at hkept
    exact hkept
  · rintro c i rfl hi
    exact Splice.swallows_insert (hsize ▸ hs.1) hi
  · obtain ⟨-, -, hsame⟩ := Splice.keeps_blocks (p := p.spliced calls) (hsize ▸ hs)
    exact hsame (Splice.swallowed_eq_nil hself) hfail

/-- A group is taken out, and the rest is inserted into itself. -/
theorem splicing_loses_only_self_insertions_rest :
    let calls : List Splice := [.detach 0 1 1, .insert 1 1 2]
    (∀ s ∈ calls, s.Names workbench.chains.size) ∧ workbench.listed = {0, 1, 2, 3, 4, 5} ∧
      workbench.lost calls = {0, 5} ∧ (workbench.spliced calls).listed + {0, 5} = {0, 1, 2, 3, 4, 5} ∧
      Splice.Names workbench.chains.size (.detach 1 0 3) ∧
      ((Edit.detach 1 0 3).run (workbench.spliced calls)).2 = workbench.spliced calls := by
  intro calls
  have hcalls : ∀ s ∈ calls, s.Names workbench.chains.size :=
    List.forall_mem_cons.mpr ⟨⟨by decide, by decide⟩, List.forall_mem_cons.mpr ⟨⟨by decide, by decide⟩, nofun⟩⟩
  have hlisted : workbench.listed = {0, 1, 2, 3, 4, 5} := by decide
  have hlost : workbench.lost calls = {0, 5} := by decide
  obtain ⟨hkept, -, hnext⟩ := splicing_loses_only_self_insertions workbench calls hcalls
  rw [hlisted, hlost] at hkept
  obtain ⟨-, hsame⟩ := hnext (.detach 1 0 3) ⟨by decide, by decide⟩
  have hclosing : Balance.runEnd ((workbench.spliced calls).outline 0) 3 = .error (.closingStart .terminator []) := rfl
  refine ⟨hcalls, hlisted, hlost, hkept, ⟨by decide, by decide⟩, hsame nofun fun hok => ?_⟩
  cases (congrArg Prod.fst (Edit.detach_refused 1 hclosing)).symm.trans hok

/-- Inserted into itself past its start, a chain is lost. -/
theorem splicing_loses_blocks :
    ¬ ∀ (p : Program) (s : Splice), s.Names p.chains.size →
      (s.edit.run p).2.listed = p.listed ∧ ((s.edit.run p).1 ≠ .ok (.ok ()) → (s.edit.run p).2 = p) := by
  intro h
  have hlisted := (h workbench (.insert 1 1 1) ⟨by decide, by decide⟩).1
  revert hlisted
  decide

end BlockEngine
