/-
  BlockEngine.Proofs.Program.Duplicates — copies are like their originals.

  A block is `Whole` if its slots of type block hold one, its handles and those of all that it contains are
  live, and so is what the definitions in its slots embed. A copy of a block `Mirrors` it: it is of the same kind, and its slots hold
  the same texts and mirrors of the blocks that are nested, down to a depth.

  Proved of any program whose arenas are in order and whose blocks are of kinds that there are:
  - `copyTree_mirrors`, `copyBlocks_mirrors`: whole blocks can be copied. Their copies mirror them, and
    blocks, chains and the kinds of blocks that there were are as before (`Enlarged`).
-/

import BlockEngine.Proofs.Machine.Likeness
import BlockEngine.Proofs.Program.Kinds
import BlockEngine.Proofs.Registry.Copying

namespace BlockEngine

open List (Forall₂)

namespace Program

variable {p q s : Program} {b c : BlockId} {x : Block}

/-- The block is there, and a block in each slot that says so; its kind and the definitions in its slots are live. It is
    so for all that it contains. -/
inductive Whole (p : Program) : BlockId → Prop
  | of (b : BlockId) (x : Block) : p.blocks[b]? = some x → (∃ y, (p.registry x.registry).holding? x.handle = some y) →
      (∀ t ∈ x.slots, t.type = .block → t.block.isSome) →
      (∀ t ∈ x.slots, t.type = .definition → t.definition.isZero = false → (p.registry x.registry).Whole t.definition) →
      (∀ c, p.Nests b c → p.Whole c) → p.Whole b

namespace Whole

theorem lt_size (hb : p.Whole b) : b < p.blocks.size := by
  cases hb with
  | of _ x hx _ _ _ _ => exact (Array.getElem?_eq_some_iff.mp hx).1

theorem acc (hb : p.Whole b) : Acc (fun c b => p.Nests b c) b := by
  induction hb with
  | of b _ _ _ _ _ _ ih => exact .intro b ih

/-- A whole block contains fewer blocks than the one that it is nested in. -/
theorem depth_lt (hb : p.Whole b) (hn : p.Nests b c) : p.depth c < p.depth b :=
  Program.depth_lt hn (Registry.not_transGen_self hb.acc)

end Whole

/-! ## More blocks -/

/-- Blocks were added, and definitions put to use. Whatever there was is as before. -/
structure Enlarged (p q : Program) : Prop where
  evolves : Evolves false false p q
  chains : q.chains = p.chains
  size : p.blocks.size ≤ q.blocks.size
  old : ∀ b < p.blocks.size, q.blocks[b]? = p.blocks[b]?
  known : (∀ b < p.blocks.size, p.Known b) → ∀ b < q.blocks.size, q.Known b

namespace Enlarged

theorem of_evolves (he : Evolves false false p q) (hb : q.blocks = p.blocks) (hc : q.chains = p.chains) :
    Enlarged p q where
  evolves := he
  chains := hc
  size := Nat.le_of_eq (by rw [hb])
  old _ _ := by rw [hb]
  known hp b hlt := ((hp b (hb ▸ hlt)).of_evolves he (by rw [hb])).1

theorem refl (p : Program) : Enlarged p p := .of_evolves (.refl p) rfl rfl

theorem trans (h : Enlarged p q) (h' : Enlarged q s) : Enlarged p s where
  evolves := h.evolves.trans h'.evolves
  chains := h'.chains.trans h.chains
  size := Nat.le_trans h.size h'.size
  old b hb := (h'.old b (Nat.lt_of_lt_of_le hb h.size)).trans (h.old b hb)
  known hp := h'.known (h.known hp)

theorem arena (h : Enlarged p q) (ha : ∀ r, (p.registry r).Arena) (r : RegistryId) : (q.registry r).Arena :=
  (ha r).of_evolves (h.evolves.registry r)

theorem kindOf (h : Enlarged p q) (hb : p.Known b) : q.kindOf b = p.kindOf b :=
  (hb.of_evolves h.evolves (h.old b hb.lt_size)).2

theorem slotsOf (h : Enlarged p q) (hb : b < p.blocks.size) : q.slotsOf b = p.slotsOf b := by
  rw [Program.slotsOf, h.old b hb, Program.slotsOf]

/-- A block of a kind that there is was added. -/
theorem addBlock (hx : x.kind < (p.registry x.registry).kinds.size) : Enlarged p (p.addBlock x).2 where
  evolves := .of_eq rfl
  chains := rfl
  size := by simp [Program.addBlock]
  old b hb := by simp [Program.addBlock, Array.getElem?_push, Nat.ne_of_lt hb]
  known hp b hb := by
    simp only [Program.addBlock, Array.size_push] at hb
    by_cases hlast : b = p.blocks.size
    · exact ⟨x, by rw [hlast, Program.addBlock, Array.getElem?_push_size], hx⟩
    · obtain ⟨y, hy, hk⟩ := hp b (by omega)
      exact ⟨y, by rw [← hy, Program.addBlock, Array.getElem?_push, if_neg hlast], hk⟩

/-- A block that was added got others of its slots. -/
theorem setBlock (h : Enlarged p q) (hc : p.blocks.size ≤ c) (hx : x.kind < (q.registry x.registry).kinds.size) :
    Enlarged p (q.setBlock c x) where
  evolves := h.evolves.trans (.of_eq rfl)
  chains := h.chains
  size := by rw [Program.setBlock, Array.size_setIfInBounds]; exact h.size
  old b hb := by
    rw [Program.setBlock, Array.getElem?_setIfInBounds, if_neg (Nat.ne_of_gt (Nat.lt_of_lt_of_le hb hc)), h.old b hb]
  known hp b hb := by
    rw [Program.setBlock, Array.size_setIfInBounds] at hb
    by_cases hcb : c = b
    · exact ⟨x, by rw [Program.setBlock, Array.getElem?_setIfInBounds, if_pos hcb, if_pos (hcb ▸ hb)], hx⟩
    · obtain ⟨y, hy, hk⟩ := h.known hp b hb
      exact ⟨y, by rw [Program.setBlock, Array.getElem?_setIfInBounds, if_neg hcb, hy], hk⟩

end Enlarged

/-! ## Mirrors -/

/-- Down to a depth, the block `c` of the second program is of the kind of the block `b` of the first and holds the
    like. All of it lies from `lo` on. -/
def Mirrors (p q : Program) (lo : BlockId) : Nat → BlockId → BlockId → Prop
  | 0, _, _ => False
  | n + 1, c, b => (lo ≤ c ∧ c < q.blocks.size ∧ b < p.blocks.size) ∧ q.kindOf c = p.kindOf b ∧
      Forall₂ (Slot.Like (Mirrors p q lo n)) (q.slotsOf c) (p.slotsOf b)

end Program

theorem Slot.Like.mono {S S' : BlockId → BlockId → Prop} (hS : ∀ b c, S b c → S' b c) {s t : Slot} (h : s.Like S t) :
    s.Like S' t := by
  refine ⟨h.type, h.text, fun hs => ?_⟩
  have hblock := h.block hs
  generalize s.block = o, t.block = o' at hblock ⊢
  cases hblock with
  | none => exact .none
  | some hbc => exact .some (hS _ _ hbc)

namespace Program

variable {p q s : Program} {b c lo lo' : BlockId} {n : Nat} {x : Block}

/-- A mirror stays one if the blocks from `lo` on are as before. -/
theorem Mirrors.moved (hs : ∀ d, lo ≤ d → d < q.blocks.size →
      d < s.blocks.size ∧ s.kindOf d = q.kindOf d ∧ s.slotsOf d = q.slotsOf d) (hle : lo' ≤ lo)
    (h : Mirrors p q lo n c b) : Mirrors p s lo' n c b := by
  induction n generalizing b c with
  | zero => exact h
  | succ n ih =>
    obtain ⟨⟨hlo, hlt, hb⟩, hkind, hslots⟩ := h
    obtain ⟨hlt', hkind', hslots'⟩ := hs c hlo hlt
    refine ⟨⟨Nat.le_trans hle hlo, hlt', hb⟩, hkind'.trans hkind, ?_⟩
    rw [hslots']
    exact hslots.imp fun _ _ hlike => hlike.mono fun _ _ => ih

theorem Mirrors.enlarged (hq : ∀ b < q.blocks.size, q.Known b) (hs : Enlarged q s) (hle : lo' ≤ lo)
    (h : Mirrors p q lo n c b) : Mirrors p s lo' n c b :=
  h.moved (fun d _ hd => ⟨Nat.lt_of_lt_of_le hd hs.size, hs.kindOf (hq d hd), hs.slotsOf hd⟩) hle

/-- A block before `lo` is no part of it. -/
theorem Mirrors.setBlock {a : BlockId} (halo : a < lo) (hle : lo' ≤ lo) (h : Mirrors p q lo n c b) :
    Mirrors p (q.setBlock a x) lo' n c b := by
  refine h.moved (fun d hlo hd => ?_) hle
  have hsame : (q.setBlock a x).blocks[d]? = q.blocks[d]? := by
    rw [Program.setBlock, Array.getElem?_setIfInBounds, if_neg (Nat.ne_of_lt (Nat.lt_of_lt_of_le halo hlo))]
  refine ⟨by rw [Program.setBlock, Array.size_setIfInBounds]; exact hd, ?_, ?_⟩
  · rw [Program.kindOf, hsame, Program.kindOf]
    rfl
  · rw [Program.slotsOf, hsame, Program.slotsOf]

end Program

/-! ## Copies -/

namespace Edit

open Program

variable {src p : Program} {n : Nat}

/-- What is made one after the other, each time whatever was added before, and stays what it is. -/
theorem mapM_enlarges {α β : Type} {f : α → Edit β} {R : Program → BlockId → β → α → Prop}
    (hkeep : ∀ {q s lo lo' b a}, (∀ b < q.blocks.size, q.Known b) → Enlarged q s → lo' ≤ lo → R q lo b a → R s lo' b a)
    {as : List α} (hp : ∀ b < p.blocks.size, p.Known b)
    (hf : ∀ a ∈ as, ∀ q, Enlarged p q → ∃ b s, (f a).run q = (.ok b, s) ∧ Enlarged q s ∧ R s q.blocks.size b a) :
    ∃ bs q, (as.mapM f).run p = (.ok bs, q) ∧ Enlarged p q ∧ Forall₂ (R q p.blocks.size) bs as := by
  induction as generalizing p with
  | nil => exact ⟨[], p, rfl, .refl p, .nil⟩
  | cons a as ih =>
    obtain ⟨b, q, hrun, hpq, hb⟩ := hf a List.mem_cons_self p (.refl p)
    have hq := hpq.known hp
    obtain ⟨bs, s, hrun', hqs, hbs⟩ := ih hq fun a ha s hs => hf a (List.mem_cons_of_mem _ ha) s (hpq.trans hs)
    refine ⟨b :: bs, s, ?_, hpq.trans hqs, .cons (hkeep hq hqs (Nat.le_refl _) hb) ?_⟩
    · rw [List.mapM_cons, run_bind, hrun]
      dsimp only
      rw [run_bind, hrun']
      rfl
    · exact hbs.imp fun _ _ h => hkeep (hqs.known hq) (.refl s) hpq.size h

theorem copySlot_mirrors {copy : BlockId → Edit BlockId} {r : RegistryId} {t : Slot} (ha : (p.registry r).Arena)
    (hfilled : t.type = .block → t.block.isSome)
    (hcopy : ∀ c, t.payload = .block c →
      ∃ d q, (copy c).run p = (.ok d, q) ∧ Enlarged p q ∧ Mirrors src q p.blocks.size n d c)
    (hdefinition : t.type = .definition → t.definition.isZero = false → (p.registry r).Whole t.definition) :
    ∃ u q, (copySlot copy r t).run p = (.ok u, q) ∧ Enlarged p q ∧ u.Like (Mirrors src q p.blocks.size n) t := by
  have hbare : t.type ≠ .block → ∃ u q, (pure t.bare : Edit Slot).run p = (.ok u, q) ∧ Enlarged p q ∧
      u.Like (Mirrors src q p.blocks.size n) t :=
    fun ht => ⟨t.bare, p, rfl, .refl p, rfl, rfl, fun h => (ht h).elim⟩
  unfold copySlot
  cases ht : t.type with
  | text | const | unknown => exact hbare (by simp [ht])
  | block =>
    obtain ⟨c, hc⟩ := Option.isSome_iff_exists.mp (hfilled ht)
    obtain ⟨d, q, hrun, hq, hd⟩ := hcopy c (by rw [Slot.payload, ht, hc])
    refine ⟨{ t.bare with block := some d }, q, ?_, hq, rfl, rfl, fun _ => ?_⟩
    · rw [hc]
      dsimp only
      rw [run_bind, hrun]
      rfl
    · rw [hc]
      exact .some hd
  | definition =>
    dsimp only
    cases hz : t.definition.isZero with
    | true => exact hbare (by simp [ht])
    | false =>
      obtain ⟨h', hok⟩ := (hdefinition ht hz).copyDefinition ha
      obtain ⟨q, hrun, hq⟩ : ∃ q, (onRegistry r fun x => x.copyDefinition t.definition).run p = (.ok (.ok h'), q) ∧
          Enlarged p q := by
        refine ⟨p.setRegistry r ((p.registry r).copyDefinition t.definition).2, ?_, ?_⟩
        · rw [← hok]
          rfl
        · exact .of_evolves (.setRegistry (Registry.copyDefinition_evolves t.definition _)) rfl rfl
      refine ⟨{ t.bare with definition := h' }, q, ?_, hq, rfl, rfl, fun h => ?_⟩
      · rw [if_neg (by simp), run_bind, hrun]
        rfl
      · cases ht.symm.trans h

section

variable (ha : ∀ r, (src.registry r).Arena) (hk : ∀ b < src.blocks.size, src.Known b)
include ha hk

/-- The slots of a whole block, if those that it nests can be copied. -/
theorem copySlots_mirrors {b : BlockId} {x : Block} (hb : src.Whole b) (hx : src.blocks[b]? = some x)
    (copy : BlockId → Edit BlockId) (hext : Enlarged src p)
    (hcopy : ∀ c, src.Nests b c → ∀ q, Enlarged src q →
      ∃ d s, (copy c).run q = (.ok d, s) ∧ Enlarged q s ∧ Mirrors src s q.blocks.size n d c) :
    ∃ ts q, (x.slots.mapM (copySlot copy x.registry)).run p = (.ok ts, q) ∧ Enlarged p q ∧
      Forall₂ (Slot.Like (Mirrors src q p.blocks.size n)) ts x.slots := by
  cases hb with
  | of _ x' hx' _ hfilled hdefinitions _ =>
    cases hx.symm.trans hx'
    refine mapM_enlarges (R := fun q lo => Slot.Like (Mirrors src q lo n)) (fun hq hqs hle h => h.mono fun _ _ => Mirrors.enlarged hq hqs hle) (hext.known hk) fun t ht q hq => ?_
    have hsrcq := hext.trans hq
    refine copySlot_mirrors (hsrcq.arena ha _) (hfilled t ht) (fun c hc => hcopy c ⟨x, hx, t, ht, hc⟩ q hsrcq)
      fun htype hz => ?_
    exact (hdefinitions t ht htype hz).of_evolves (ha _) (hsrcq.evolves.registry _)

/-- The copy of a whole block, from the copies of its slots. -/
theorem copyTree_mirrors {b : BlockId} {parent : Option BlockId} (hb : src.Whole b) (hn : src.depth b < n)
    (hext : Enlarged src p) :
    ∃ q, (copyTree n b parent).run p = (.ok p.blocks.size, q) ∧ Enlarged p q ∧
      Mirrors src q p.blocks.size n p.blocks.size b := by
  induction n generalizing b parent p with
  | zero => omega
  | succ n ih =>
    obtain ⟨x, hx, ⟨y, hy⟩, hnested⟩ : ∃ x, src.blocks[b]? = some x ∧
        (∃ y, (src.registry x.registry).holding? x.handle = some y) ∧ ∀ c, src.Nests b c → src.Whole c := by
      cases hb with
      | of _ x hx hlive _ _ hnested => exact ⟨x, hx, hlive, hnested⟩
    have hlt := (Array.getElem?_eq_some_iff.mp hx).1
    have hkind : x.kind < (src.registry x.registry).kinds.size := by
      obtain ⟨x', hx', hkind⟩ := hk b hlt
      cases hx.symm.trans hx'
      exact hkind
    have hkinds : ∀ {q}, Enlarged src q → x.kind < (q.registry x.registry).kinds.size := fun hq =>
      Nat.lt_of_lt_of_le hkind (Registry.kinds_le_of_evolves (hq.evolves.registry _))
    -- the kind gets one more reference
    obtain ⟨z, hz, -⟩ := Registry.kind?_eq_some.mp
      (Registry.kind?_grows (ha _) (hext.evolves.registry _) (Registry.kind?_eq_some.mpr ⟨y, hy, rfl⟩))
    obtain ⟨p₁, hretain, hp₁, hsize⟩ : ∃ p₁, (onRegistry x.registry fun r => r.retain x.handle).run p =
        (.ok (.ok (z.refs + 1)), p₁) ∧ Enlarged p p₁ ∧ p₁.blocks.size = p.blocks.size := by
      refine ⟨_, run_retain hz, .of_evolves ?_ rfl rfl, rfl⟩
      have he := evolves_onRegistry (r := x.registry) (Registry.retain_evolves false x.handle) p
      rwa [run_retain hz] at he
    -- the copy starts without slots
    let blank : Block := { x with slots := [], parent := parent, left := [] }
    have hadd : (ofState fun p => p.addBlock blank).run p₁ = (.ok p.blocks.size, (p₁.addBlock blank).2) := hsize ▸ rfl
    have hp₂ : Enlarged p (p₁.addBlock blank).2 := hp₁.trans (.addBlock (hkinds (hext.trans hp₁)))
    have hbehind : p.blocks.size < (p₁.addBlock blank).2.blocks.size := by simp [Program.addBlock, hsize]
    generalize (p₁.addBlock blank).2 = p₂ at hadd hp₂ hbehind
    -- and takes the slots in the end, whose copies lie behind it
    obtain ⟨ts, q, hslots, hq, hts⟩ := copySlots_mirrors ha hk (n := n) hb hx
      (fun c => copyTree n c (some p.blocks.size)) (hext.trans hp₂) fun c hc q hq => by
        have hless := hb.depth_lt hc
        obtain ⟨s, hrun, hs, hd⟩ := ih (hnested c hc) (by omega) hq
        exact ⟨_, s, hrun, hs, hd⟩
    have hsrcq := (hext.trans hp₂).trans hq
    let whole : Block := { x with slots := ts, parent := parent, left := [] }
    have hwhole : (q.setBlock p.blocks.size whole).blocks[p.blocks.size]? = some whole := by
      rw [Program.setBlock, Array.getElem?_setIfInBounds, if_pos rfl, if_pos (Nat.lt_of_lt_of_le hbehind hq.size)]
    refine ⟨q.setBlock p.blocks.size whole, ?_, (hp₂.trans hq).setBlock (Nat.le_refl _) (hkinds hsrcq),
      ⟨Nat.le_refl _, (Array.getElem?_eq_some_iff.mp hwhole).1, hlt⟩, ?_, ?_⟩
    · rw [copyTree, run_bind, run_block ((hext.old b hlt).trans hx)]
      dsimp only
      rw [run_bind, hretain]
      dsimp only
      rw [run_bind, hadd]
      dsimp only
      rw [run_bind, hslots]
      rfl
    · rw [Program.kindOf, hwhole, Program.kindOf, hx]
      exact Registry.kind_evolves (hsrcq.evolves.registry _) hkind
    · rw [Program.slotsOf, hwhole, Program.slotsOf, hx]
      refine hts.imp fun t s hlike => ?_
      exact hlike.mono fun d e hd => hd.setBlock hbehind (Nat.le_of_lt hbehind)

end

/-- Copies of whole blocks, made one after the other. -/
theorem copyBlocks_mirrors (ha : ∀ r, (p.registry r).Arena) (hk : ∀ b < p.blocks.size, p.Known b) {bs : List BlockId}
    (hbs : ∀ b ∈ bs, p.Whole b) :
    ∃ cs q, (copyBlocks bs).run p = (.ok p.chains.size, (q.addChain cs).2) ∧ Enlarged p q ∧
      Forall₂ (fun c b => ∃ n, Mirrors p q p.blocks.size n c b) cs bs := by
  obtain ⟨cs, q, hrun, hq, hcs⟩ : ∃ cs q, (bs.mapM fun b => copyBlock b none).run p = (.ok cs, q) ∧ Enlarged p q ∧
      Forall₂ (fun c b => ∃ n, Mirrors p q p.blocks.size n c b) cs bs := by
    refine mapM_enlarges (R := fun q lo c b => ∃ n, Mirrors p q lo n c b)
      (fun hq hqs hle h => h.imp fun n hc => hc.enlarged hq hqs hle) hk fun b hb q hq => ?_
    have hfuel : p.depth b < q.blocks.size + 1 := Nat.lt_succ_of_le (Nat.le_trans (p.depth_le b) hq.size)
    obtain ⟨s, hrun, hs, hc⟩ := copyTree_mirrors ha hk (hbs b hb) hfuel hq
    refine ⟨_, s, ?_, hs, _, hc⟩
    rw [copyBlock, run_bind, show (get : Edit Program).run q = (.ok q, q) from rfl]
    exact hrun
  refine ⟨cs, q, ?_, hq, hcs⟩
  rw [copyBlocks, run_bind, hrun, ← hq.chains]
  rfl

end Edit

end BlockEngine
