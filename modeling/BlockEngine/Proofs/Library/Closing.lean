/-
  BlockEngine.Proofs.Library.Closing — chains that the library closes.

  Closing takes terminators from openers over the whole chain, and takes no account of their order or of
  continuations (`excess`). The check reads from the left. As long as no block closes what is not open the
  two agree (`excess_of_openAfter`), and where one does, no terminator at the end can mend it.

  A terminator is a new block, and placing it may add definitions to a registry. The blocks that were there
  keep their kinds, since these are known (`Lengthened.known`).

  Proved of programs with known blocks (`known_after`):
  - `close_completes`: closing never fails and keeps what was there. The chain nests afterwards just if all
    that was wrong before was that bodies were left open, and it gets a terminator for each of these. So
    a program nests whose blocks close nothing that is not open.
-/

import BlockEngine.Library.Builder
import BlockEngine.Proofs.Program.Kinds
import BlockEngine.Proofs.Program.Splicing

namespace BlockEngine

/-! ## What is missing -/

namespace Balance

variable {depth n : Nat} {t : BlockType} {types : List BlockType} {blocks : List (BlockType × Text)}

@[simp] theorem excess_nil : excess [] = 0 := rfl

@[simp] theorem excess_cons (t : BlockType) (types : List BlockType) : excess (t :: types) = weight t + excess types := rfl

theorem excess_append (a b : List BlockType) : excess (a ++ b) = excess a + excess b := by
  induction a with
  | nil => simp
  | cons t a ih => rw [List.cons_append, excess_cons, excess_cons, ih, Int.add_assoc]

theorem excess_terminators (n : Nat) : excess (List.replicate n .terminator) = -n := by
  induction n with
  | zero => rfl
  | succ n ih =>
    rw [List.replicate_succ, excess_cons, ih, weight]
    omega

theorem weight_of_open? (h : open? depth t = some n) : (n : Int) = depth + weight t := by
  cases t <;> cases depth <;> cases h <;> simp [weight]

/-- Where no block closes what is not open, the excess is what is open in the end. -/
theorem excess_of_openAfter (h : openAfter depth types = some n) : depth + excess types = n := by
  induction types generalizing depth with
  | nil =>
    cases h
    exact Int.add_zero _
  | cons t types ih =>
    rw [openAfter_cons] at h
    obtain ⟨d, hd, h⟩ := Option.bind_eq_some_iff.mp h
    rw [excess_cons, ← Int.add_assoc, ← weight_of_open? hd, ih h]

end Balance

/-! ## Placing terminators -/

namespace Program

open Balance

variable {p q s : Program} {b : BlockId} {c : ChainId} {as bs : List BlockId}

/-- A new chain of the given blocks differs from what they were in parents only. -/
theorem run_newChain (bs : List BlockId) (p : Program) :
    ∃ c q, (Edit.newChain bs).run p = (.ok c, q) ∧ Relinked p q ∧ q.chain c = bs := by
  refine ⟨_, _, rfl, (relinked_detachAll bs p).trans (.of_eq rfl rfl), ?_⟩
  simp [chain]

/-- Terminators were placed and added to the end of a chain. Registries apart, what was there is as it was. -/
structure Lengthened (p : Program) (c : ChainId) (ends : List BlockId) (q : Program) : Prop where
  evolves : Program.Evolves false false p q
  grows : p.blocks.size ≤ q.blocks.size
  blocks : ∀ b < p.blocks.size, q.blocks[b]? = p.blocks[b]?
  size : q.chains.size = p.chains.size
  chain : ∀ k, q.chain k = if k = c then p.chain c ++ ends else p.chain k
  ends : ∀ b ∈ ends, p.blocks.size ≤ b ∧ q.Known b ∧ (q.kindOf b).type = .terminator

namespace Lengthened

theorem refl (p : Program) (c : ChainId) : Lengthened p c [] p where
  evolves := .refl p
  grows := Nat.le_refl _
  blocks _ _ := rfl
  size := rfl
  chain k := by split <;> simp [*]
  ends := nofun

theorem trans (h : Lengthened p c as q) (h' : Lengthened q c bs s) : Lengthened p c (as ++ bs) s where
  evolves := h.evolves.trans h'.evolves
  grows := Nat.le_trans h.grows h'.grows
  blocks b hb := (h'.blocks b (Nat.lt_of_lt_of_le hb h.grows)).trans (h.blocks b hb)
  size := h'.size.trans h.size
  chain k := by
    rw [h'.chain, h.chain, h.chain, if_pos rfl]
    split
    · rw [List.append_assoc]
    · rfl
  ends b hb := by
    rcases List.mem_append.mp hb with hb | hb
    · obtain ⟨hnew, hknown, htype⟩ := h.ends b hb
      obtain ⟨hknown', hkind⟩ := hknown.of_evolves h'.evolves (h'.blocks b hknown.lt_size)
      exact ⟨hnew, hknown', hkind ▸ htype⟩
    · obtain ⟨hnew, hends⟩ := h'.ends b hb
      exact ⟨Nat.le_trans h.grows hnew, hends⟩

theorem known (h : Lengthened p c as q) (hb : p.Known b) : q.Known b ∧ q.kindOf b = p.kindOf b :=
  hb.of_evolves h.evolves (h.blocks b hb.lt_size)

theorem types (h : Lengthened p c as q) (hp : ∀ b ∈ p.chain c, p.Known b) :
    q.types c = p.types c ++ List.replicate as.length .terminator := by
  rw [Program.types, h.chain, if_pos rfl, List.map_append]
  refine congrArg₂ _ (List.map_congr_left fun b hb => ?_) (List.eq_replicate_iff.mpr ⟨List.length_map _, ?_⟩)
  · rw [(h.known (hp b hb)).2]
  · intro t ht
    obtain ⟨b, hb, rfl⟩ := List.mem_map.mp ht
    exact (h.ends b hb).2.2

/-- There are as many terminators as bodies that were left open. -/
theorem length_eq (hlength : as.length = (excess (p.types c)).toNat) {n : Nat} (hn : openAfter 0 (p.types c) = some n) :
    as.length = n := by
  have hexcess := excess_of_openAfter hn
  omega

/-- Nothing is missing any more. -/
theorem excess_eq (h : Lengthened p c as q) (hp : ∀ b ∈ p.chain c, p.Known b)
    (hlength : as.length = (excess (p.types c)).toNat) : (excess (q.types c)).toNat = 0 := by
  rw [h.types hp, excess_append, excess_terminators]
  omega

/-- Terminators for the excess complete what can be completed. -/
theorem validate_eq_none_iff (h : Lengthened p c as q) (hp : ∀ b ∈ p.chain c, p.Known b)
    (hlength : as.length = (excess (p.types c)).toNat) :
    q.validate c = none ↔ p.validate c = none ∨ ∃ n, p.validate c = some (.unclosed n) := by
  rw [Program.validate_eq_none_iff, validate, check_completable_iff, outline_types, h.types hp, openAfter_append]
  constructor
  · -- the reading has to get through the old blocks first
    intro hclosed
    obtain ⟨n, hn, -⟩ := Option.bind_eq_some_iff.mp hclosed
    exact ⟨n, hn⟩
  · rintro ⟨n, hn⟩
    rw [hn, Option.bind_some, length_eq hlength hn, openAfter_terminators]

end Lengthened

end Program

namespace Library

open Program Balance

variable {l : Library} {p q : Program} {c : ChainId}

def Terminates (l : Library) (p : Program) : Prop :=
  ∃ d, (p.registry l.registry).definition? (p.registry l.registry).terminator = some d ∧ d.type = .terminator

theorem Terminates.of_evolves (hl : l.Terminates p) (ha : ∀ r, (p.registry r).Arena) (he : Evolves false false p q) :
    l.Terminates q := by
  obtain ⟨d, hd, ht⟩ := hl
  refine ⟨d, ?_, ht⟩
  rw [(Registry.unlisted_evolves (he.registry l.registry)).2]
  exact Registry.definition?_grows (ha l.registry) (he.registry l.registry) hd

/-- One terminator is placed and appended. -/
theorem run_terminate_succ (hl : l.Terminates p) (ha : ∀ r, (p.registry r).Arena) (hc : c < p.chains.size) (n : Nat) :
    ∃ b q, (l.terminate c (n + 1)).run p = (l.terminate c n).run q ∧ Lengthened p c [b] q := by
  obtain ⟨d, hd, ht⟩ := hl
  obtain ⟨q, hrun, hq⟩ := Edit.newBlock_places (ha l.registry) hd
  refine ⟨p.blocks.size, q.setChain c (q.chain c ++ [p.blocks.size]), ?_, {
    evolves := hq.evolves.trans (.of_eq rfl)
    grows := Nat.le_of_lt (Nat.lt_of_lt_of_eq (Nat.lt_succ_self _) hq.size.symm)
    blocks := hq.old
    size := by rw [size_setChain, hq.chains]
    chain := fun k => ?_
    ends := fun b hb => ?_ }⟩
  · rw [terminate, Edit.run_bind, run_get]
    dsimp only
    rw [Edit.run_bind, hrun]
    dsimp only
    rw [Edit.run_bind, run_append, show q.detachAll [p.blocks.size] = q from hq.top]
  · rw [chain_setChain, hq.chains, chain_congr hq.chains, chain_congr hq.chains]
    simp only [hc, and_true]
  · obtain rfl := List.mem_singleton.mp hb
    exact ⟨Nat.le_refl _, hq.known, (congrArg Definition.type hq.kind).trans ht⟩

/-- Appending terminators never fails. -/
theorem terminate_lengthens (hl : l.Terminates p) (ha : ∀ r, (p.registry r).Arena) (hc : c < p.chains.size) (n : Nat) :
    ∃ ends q, (l.terminate c n).run p = (.ok (), q) ∧ Lengthened p c ends q ∧ ends.length = n := by
  induction n generalizing p with
  | zero => exact ⟨[], p, rfl, .refl p c, rfl⟩
  | succ n ih =>
    obtain ⟨b, q, hrun, hq⟩ := run_terminate_succ hl ha hc n
    obtain ⟨ends, s, hrun', hs, hlength⟩ := ih (hl.of_evolves ha hq.evolves)
      (fun r => (ha r).of_evolves (hq.evolves.registry r)) (hq.size ▸ hc)
    exact ⟨b :: ends, s, hrun.trans hrun', hq.trans hs, by rw [List.length_cons, hlength]⟩

theorem run_close (l : Library) (c : ChainId) (p : Program) :
    (l.close c).run p = (l.terminate c (excess (p.types c)).toNat).run p := by
  rw [close, Edit.run_bind, run_get]
  dsimp only
  rw [outline_types]

/-- Closing appends as many terminators as the excess of the chain. -/
theorem close_lengthens (hl : l.Terminates p) (ha : ∀ r, (p.registry r).Arena) (c : ChainId) :
    ∃ ends q, (l.close c).run p = (.ok (), q) ∧ Lengthened p c ends q ∧ ends.length = (excess (p.types c)).toNat := by
  rw [run_close]
  by_cases hc : c < p.chains.size
  · exact terminate_lengthens hl ha hc _
  · have hempty : p.types c = [] := by
      rw [types, chain, Array.getElem?_eq_none (Nat.not_lt.mp hc)]
      rfl
    rw [hempty]
    exact ⟨[], p, rfl, .refl p c, rfl⟩

/-- A standard block is placed without arguments. -/
theorem run_new {id : Text} {h : Handle} {d : Definition} (hh : l.handles.get? id = some h)
    (ha : (p.registry l.registry).Arena) (hd : (p.registry l.registry).definition? h = some d) :
    ∃ q, (l.new id []).run p = (.ok p.blocks.size, q) ∧ Gains p d q := by
  obtain ⟨q, hrun, hq⟩ := Edit.newBlock_places ha hd
  refine ⟨q, ?_, hq⟩
  have hhandle : (l.handle id).run p = (.ok h, p) := by
    rw [handle, hh]
    rfl
  rw [new, Edit.run_bind, hhandle]
  dsimp only
  rw [place, Edit.run_bind, hrun]
  rfl

/-- A program is the chain of a hat and the given blocks, and as many terminators as its excess. -/
theorem program_lengthens {h : Handle} {d : Definition} {bs : List BlockId} (hl : l.Terminates p)
    (ha : ∀ r, (p.registry r).Arena) (hh : l.handles.get? "when_run" = some h)
    (hd : (p.registry l.registry).definition? h = some d) (hbs : ∀ b ∈ bs, p.Known b) :
    ∃ c hat ends q s, (l.program bs).run p = (.ok c, s) ∧ Lengthened q c ends s ∧
      ends.length = (excess (q.types c)).toNat ∧ q.chain c = hat :: bs ∧ (∀ b ∈ q.chain c, q.Known b) ∧
      q.types c = d.type :: bs.map fun b => (p.kindOf b).type := by
  obtain ⟨p', hnew, hp'⟩ := run_new hh (ha l.registry) hd
  obtain ⟨c, q, hlist, hq, hchain⟩ := run_newChain (p.blocks.size :: bs) p'
  have he := hp'.evolves.trans hq.evolves
  obtain ⟨ends, s, hclose, hs, hlength⟩ :=
    close_lengthens (hl.of_evolves ha he) (fun r => (ha r).of_evolves (he.registry r)) c
  refine ⟨c, p.blocks.size, ends, q, s, ?_, hs, hlength, hchain, ?_, ?_⟩
  · rw [program, Edit.run_bind, hnew]
    dsimp only
    rw [Edit.run_bind, hlist]
    dsimp only
    rw [Edit.run_bind, hclose]
    rfl
  · rw [hchain]
    exact List.forall_mem_cons.mpr ⟨hp'.known.relinked hq, fun b hb => (hp'.keeps (hbs b hb)).1.relinked hq⟩
  · rw [types_relinked hq, hchain, List.map_cons, hp'.kind]
    exact congrArg _ (List.map_congr_left fun b hb => by rw [(hp'.keeps (hbs b hb)).2])

end Library

open Program Balance

/-- Closing completes exactly the chains that can be completed. It takes a live implicit terminator, registries in
    order (`arena_after`) and blocks of known kinds (`known_after`).
    - Closing never fails. The blocks of the chain stay as they are and where they are, and the blocks that are
      appended are new and terminators.
    - Afterwards the chain nests just if it did before or all that was wrong was that bodies were left open.
      There is one terminator for each of these, and none if the chain nested already. Closing it again
      changes nothing.
    - A program is built of any blocks, after a hat. It nests just if nothing is wrong with the blocks, or only
      that bodies are left open. -/
theorem close_completes (l : Library) (p : Program) (ha : ∀ r, (p.registry r).Arena) (hl : l.Terminates p) :
    (∀ c, (∀ b ∈ p.chain c, p.Known b) →
      ∃ ends q, (l.close c).run p = (.ok (), q) ∧ q.chain c = p.chain c ++ ends ∧
        (∀ b < p.blocks.size, q.blocks[b]? = p.blocks[b]?) ∧ (∀ b ∈ p.chain c, q.kindOf b = p.kindOf b) ∧
        (∀ b ∈ ends, p.blocks.size ≤ b ∧ (q.kindOf b).type = .terminator) ∧
        (∀ k, k ≠ c → q.chain k = p.chain k) ∧
        (q.validate c = none ↔ p.validate c = none ∨ ∃ n, p.validate c = some (.unclosed n)) ∧
        (p.validate c = none → ends = []) ∧ (∀ n, p.validate c = some (.unclosed n) → ends.length = n) ∧
        (l.close c).run q = (.ok (), q)) ∧
    ∀ h d bs, l.handles.get? "when_run" = some h → (p.registry l.registry).definition? h = some d → d.type = .hat →
      (∀ b ∈ bs, p.Known b) →
      ∃ c hat ends q, (l.program bs).run p = (.ok c, q) ∧ q.chain c = hat :: bs ++ ends ∧
        let outline := bs.map fun b => ((p.kindOf b).type, (p.kindOf b).id)
        (q.validate c = none ↔ check outline = none ∨ ∃ n, check outline = some (.unclosed n)) := by
  refine ⟨fun c hc => ?_, fun h d bs hh hd hhat hbs => ?_⟩
  · obtain ⟨ends, q, hrun, hq, hlength⟩ := Library.close_lengthens hl ha c
    refine ⟨ends, q, hrun, by rw [hq.chain, if_pos rfl], hq.blocks, fun b hb => (hq.known (hc b hb)).2,
      fun b hb => ⟨(hq.ends b hb).1, (hq.ends b hb).2.2⟩, fun k hk => by rw [hq.chain, if_neg hk],
      hq.validate_eq_none_iff hc hlength, fun hnone => ?_, fun n hn => ?_, ?_⟩
    · exact List.eq_nil_of_length_eq_zero (Lengthened.length_eq hlength (validate_eq_none_iff.mp hnone))
    · have hopen := openAfter_of_unclosed hn
      rw [outline_types] at hopen
      exact Lengthened.length_eq hlength hopen
    · rw [Library.run_close, hq.excess_eq hc hlength]
      rfl
  · obtain ⟨c, hat, ends, q, s, hrun, hs, hlength, hchain, hknown, htypes⟩ := Library.program_lengthens hl ha hh hd hbs
    refine ⟨c, hat, ends, s, hrun, by rw [hs.chain, if_pos rfl, hchain], ?_⟩
    intro outline
    rw [hs.validate_eq_none_iff hknown hlength, validate, check_completable_iff, check_completable_iff, outline_types,
      htypes, hhat, List.map_map]
    rfl

def scaffold : List Call :=
  [.register 0 { id := [], type := .hat }, .register 0 { id := [], type := .control },
    .register 0 { id := [], type := .terminator }, .newBlock 0 ⟨1, 1⟩, .newBlock 0 ⟨1, 1⟩, .newChain [0, 1]]

theorem close_completes_scaffold :
    let p := (start 1).after scaffold
    let l : Library := { registry := 0, handles := [("when_run", ⟨0, 1⟩)] }
    (∀ r, (p.registry r).Arena) ∧ l.Terminates p ∧ (∀ b ∈ p.chain 0, p.Known b) ∧ p.validate 0 = some (.unclosed 2) ∧
      (∃ ends q, (l.close 0).run p = (.ok (), q) ∧ q.chain 0 = 0 :: 1 :: ends ∧ ends.length = 2 ∧
        q.validate 0 = none ∧ (l.close 0).run q = (.ok (), q)) ∧
      ∃ c q, (l.program [0, 1]).run p = (.ok c, q) ∧ q.validate c = none := by
  intro p l
  have ha : ∀ r, (p.registry r).Arena := arena_after (arena_start 1) scaffold
  have hknown : ∀ b < p.blocks.size, p.Known b := known_after (arena_start 1) nofun scaffold
  have hl : l.Terminates p := ⟨_, rfl, rfl⟩
  have hlisted : ∀ b ∈ [0, 1], p.Known b := fun b hb => hknown b (by revert b; decide)
  have hopen : p.validate 0 = some (.unclosed 2) := rfl
  obtain ⟨hclose, hprogram⟩ := close_completes l p ha hl
  obtain ⟨ends, q, hrun, hchain, -, -, -, -, hvalidate, -, hlength, hagain⟩ := hclose 0 hlisted
  obtain ⟨c, -, -, s, hbuilt, -, hnests⟩ := hprogram ⟨0, 1⟩ _ [0, 1] rfl rfl rfl hlisted
  exact ⟨ha, hl, hlisted, hopen, ⟨ends, q, hrun, hchain, hlength 2 hopen, hvalidate.mpr (.inr ⟨2, hopen⟩), hagain⟩,
    c, s, hbuilt, hnests.mpr (.inr ⟨2, rfl⟩)⟩

end BlockEngine
