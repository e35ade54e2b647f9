/-
  BlockEngine.Proofs.Program.References — who refers to a definition.

  A definition has references from the palette, from blocks of its kind, from slots that hold it, from
  inputs that embed it, and from the caller. A `Ledger` has those of the caller. A program is `Exact` for
  a ledger if each of its registries is exact for all references from outside it.

  While blocks are destroyed their references are still there but already dropped, one by one; such
  blocks are set aside (`skip`) and what is left of their references is on the ledger.

  Proved of an exact program:
  - `Exact.destroyTree`: destroying a block drops all that it and what it contains refer to.
-/

import BlockEngine.Proofs.Program.Nesting
import BlockEngine.Proofs.Registry.References
import Mathlib.Algebra.GroupWithZero.Nat

namespace BlockEngine

open Finset

/-! ## Ledgers -/

abbrev Ledger := RegistryId → Handle → Nat

def refs (r : RegistryId) (hs : List Handle) : Ledger := fun r' h => if r' = r then hs.count h else 0

@[simp] theorem refs_nil (r : RegistryId) : refs r [] = 0 := by
  funext r' h
  simp [refs]

theorem refs_append (r : RegistryId) (hs hs' : List Handle) : refs r (hs ++ hs') = refs r hs + refs r hs' := by
  funext r' h
  by_cases hr : r' = r <;> simp [refs, hr]

theorem refs_cons (r : RegistryId) (h : Handle) (hs : List Handle) : refs r (h :: hs) = refs r [h] + refs r hs :=
  refs_append r [h] hs

def Payload.definition? : Payload → Option Handle
  | .definition h => some h
  | _ => none

def definitions (ss : List Slot) : List Handle := ss.filterMap (·.payload.definition?)

theorem definitions_cons (s : Slot) (ss : List Slot) : definitions (s :: ss) = definitions [s] ++ definitions ss := by
  simp [definitions, List.filterMap_cons]
  cases s.payload.definition? <;> rfl

def Block.refs (x : Block) : Ledger := BlockEngine.refs x.registry (x.handle :: definitions x.slots)

theorem Block.refs_eq (x : Block) :
    x.refs = BlockEngine.refs x.registry [x.handle] + BlockEngine.refs x.registry (definitions x.slots) :=
  refs_cons _ _ _

namespace Program

def refsOf (p : Program) (r : RegistryId) (h : Handle) (b : BlockId) : Nat := p.blocks[b]?.elim 0 (·.refs r h)

/-- References to a definition from outside its registry, and from the palette: those of the blocks that are
    not set aside, and those on the ledger. -/
def outside (p : Program) (skip : Finset BlockId) (l : Ledger) (r : RegistryId) (h : Handle) : Nat :=
  (p.registry r).palette.count h + ∑ b ∈ range p.blocks.size \ skip, p.refsOf r h b + l r h

/-- Every registry counts what there is. -/
def Exact (p : Program) (skip : Finset BlockId) (l : Ledger) : Prop :=
  ∀ r, (p.registry r).Exact (p.outside skip l r)

variable {p q : Program} {skip : Finset BlockId} {l l' : Ledger} {r : RegistryId} {h : Handle} {b : BlockId}
  {x y : Block} {hs : List Handle}

theorem Exact.congr (he : p.Exact skip l) (hl : ∀ r h, h.generation ≠ 0 → l r h = l' r h) : p.Exact skip l' :=
  fun r => (he r).congr fun h hz => by rw [outside, outside, hl r h hz]

theorem Exact.start (n : Nat) : (start n).Exact ∅ 0 := by
  intro r
  rw [registry_start]
  refine Registry.Exact.new.congr fun h _ => ?_
  rw [outside, registry_start]
  simp [Program.start]

/-! ## Registries -/

theorem Exact.setRegistry (he : p.Exact skip l) (hr : r < p.registries.size) {x : Registry}
    (hl : ∀ r', r' ≠ r → l' r' = l r')
    (hx : x.Exact fun h => x.palette.count h + ∑ b ∈ range p.blocks.size \ skip, p.refsOf r h b + l' r h) :
    (p.setRegistry r x).Exact skip l' := by
  intro r'
  have hreg := registry_setRegistry r r' x p
  by_cases h : r' = r
  · subst h
    rw [if_pos ⟨rfl, hr⟩] at hreg
    rw [hreg]
    exact hx.congr fun h _ => by rw [outside, hreg]; rfl
  · rw [if_neg fun hc => h hc.1] at hreg
    rw [hreg]
    exact (he r').congr fun h' _ => by rw [outside, outside, hreg, hl r' h]; rfl

/-- What is referred to is in use. -/
theorem Exact.holding (he : p.Exact skip l) (hz : h.generation ≠ 0) (hpos : 0 < l r h) :
    ∃ x, (p.registry r).holding? h = some x :=
  (he r).holding hz (by simp only [outside]; omega)

theorem lt_size_of_holding {x : Holding} (hx : (p.registry r).holding? h = some x) : r < p.registries.size := by
  by_contra hr
  rw [registry_of_le (Nat.not_lt.mp hr)] at hx
  simp [Registry.holding?] at hx

/-- The ledger as a registry sees it. -/
theorem outside_add (p : Program) (skip : Finset BlockId) (l : Ledger) (r : RegistryId) (hs : List Handle) :
    p.outside skip (l + refs r hs) r = Registry.plus (p.outside skip l r) hs := by
  funext h
  simp only [outside, Registry.plus, Pi.add_apply, refs, if_true]
  omega

theorem add_refs_of_ne {r' : RegistryId} (l : Ledger) (hs : List Handle) (h : r' ≠ r) : (l + refs r hs) r' = l r' := by
  funext h'
  simp [refs, h]

/-- An operation on a registry that keeps the palette trades some references for others. -/
theorem Exact.trade (hs hs' : List Handle) (he : p.Exact skip (l + refs r hs)) (hr : r < p.registries.size)
    {x : Registry} (hp : x.palette = (p.registry r).palette)
    (hx : ∀ {ext}, (p.registry r).Exact (Registry.plus ext hs) → x.Exact (Registry.plus ext hs')) :
    (p.setRegistry r x).Exact skip (l + refs r hs') := by
  refine he.setRegistry hr (fun r' h => (add_refs_of_ne l hs' h).trans (add_refs_of_ne l hs h).symm) ?_
  have hreg := he r
  rw [outside_add] at hreg
  refine (hx hreg).congr fun h _ => ?_
  rw [hp, ← outside_add]
  rfl

theorem Exact.retain (he : p.Exact skip l) {x : Holding} (hx : (p.registry r).holding? h = some x) :
    (p.setRegistry r ((p.registry r).setRefs h x (x.refs + 1))).Exact skip (l + refs r [h]) := by
  refine Exact.trade [] [h] (by simpa using he) (lt_size_of_holding hx) rfl fun he => ?_
  exact (he.congr fun _ _ => rfl).retain hx

/-- Dropping a reference on the ledger. -/
theorem Exact.drop (he : p.Exact skip (l + refs r [h])) : (p.drop r h).Exact skip l := by
  unfold Program.drop
  split
  · rename_i hz
    refine he.congr fun r' h' hz' => ?_
    have hne : h ≠ h' := by
      rintro rfl
      simp [Handle.isZero] at hz
      exact hz' hz
    simp [refs, hne]
  · rename_i hz
    have hz' : h.generation ≠ 0 := by simpa [Handle.isZero] using hz
    obtain ⟨x, hx⟩ := he.holding hz' (r := r) (by simp [refs])
    have hpalette := Registry.palette_evolves (Registry.release_evolves h (p.registry r))
    have hdone := he.trade [h] [] (lt_size_of_holding hx) hpalette fun he => by
      obtain ⟨n, -, hex⟩ := he.release hz'
      exact hex.congr fun _ _ => rfl
    rw [refs_nil, add_zero] at hdone
    exact hdone

/-! ## Blocks -/

theorem refsOf_some (hx : p.blocks[b]? = some x) : p.refsOf r h b = x.refs r h := by simp [refsOf, hx]

/-- What a block refers to is in use. -/
theorem Exact.holding_of_block (he : p.Exact skip l) (hb : b ∉ skip) (hx : p.blocks[b]? = some x)
    (hz : h.generation ≠ 0) (hpos : 0 < x.refs r h) : ∃ y, (p.registry r).holding? h = some y := by
  refine (he r).holding hz ?_
  have hmem : b ∈ range p.blocks.size \ skip :=
    mem_sdiff.mpr ⟨mem_range.mpr (Array.getElem?_eq_some_iff.mp hx).1, hb⟩
  have hle : x.refs r h ≤ ∑ c ∈ range p.blocks.size \ skip, p.refsOf r h c := by
    rw [← refsOf_some hx]
    exact single_le_sum (fun _ _ => Nat.zero_le _) hmem
  simp only [outside]
  omega

/-- A block is set aside: its references go on the ledger. -/
theorem Exact.hide (he : p.Exact skip l) (hb : b ∉ skip) (hx : p.blocks[b]? = some x) :
    p.Exact (insert b skip) (l + x.refs) := by
  have hmem : b ∈ range p.blocks.size \ skip :=
    mem_sdiff.mpr ⟨mem_range.mpr (Array.getElem?_eq_some_iff.mp hx).1, hb⟩
  refine fun r => (he r).congr fun h _ => ?_
  have hsum : x.refs r h + ∑ c ∈ range p.blocks.size \ insert b skip, p.refsOf r h c =
      ∑ c ∈ range p.blocks.size \ skip, p.refsOf r h c := by
    rw [← refsOf_some hx, sdiff_insert]
    exact add_sum_erase _ _ hmem
  simp only [outside, Pi.add_apply]
  omega

/-- A block that was set aside is put back, whatever it is now: its references come from the ledger. -/
theorem Exact.reveal (he : p.Exact (insert b skip) (l + y.refs)) (hb : b ∉ skip) (hlt : b < p.blocks.size) :
    (p.setBlock b y).Exact skip l := by
  have hmem : b ∈ range p.blocks.size \ skip := mem_sdiff.mpr ⟨mem_range.mpr hlt, hb⟩
  refine fun r => (he r).congr fun h _ => ?_
  have hsize : (p.setBlock b y).blocks.size = p.blocks.size := Array.size_setIfInBounds
  have hsum : y.refs r h + ∑ c ∈ range p.blocks.size \ insert b skip, (p.setBlock b y).refsOf r h c =
      ∑ c ∈ range p.blocks.size \ skip, (p.setBlock b y).refsOf r h c := by
    have hnew : (p.setBlock b y).refsOf r h b = y.refs r h := refsOf_some (by simp [Program.setBlock, hlt])
    rw [← hnew, sdiff_insert]
    exact add_sum_erase _ _ hmem
  have hrest : ∑ c ∈ range p.blocks.size \ insert b skip, p.refsOf r h c =
      ∑ c ∈ range p.blocks.size \ insert b skip, (p.setBlock b y).refsOf r h c := by
    refine sum_congr rfl fun c hc => ?_
    have hne : b ≠ c := fun hbc => (mem_sdiff.mp hc).2 (mem_insert.mpr (.inl hbc.symm))
    simp [refsOf, Program.setBlock, hne]
  simp only [outside, hsize, Pi.add_apply]
  show _ = (p.registry r).palette.count h + _ + _
  omega

/-- A block is changed, and the ledger makes up the difference. -/
theorem Exact.setBlock (he : p.Exact skip l) (hb : b ∉ skip) (hx : p.blocks[b]? = some x)
    (hl : ∀ r h, h.generation ≠ 0 → l' r h + y.refs r h = l r h + x.refs r h) : (p.setBlock b y).Exact skip l' :=
  ((he.hide hb hx).congr fun r h hz => (hl r h hz).symm).reveal hb (Array.getElem?_eq_some_iff.mp hx).1

/-- A new block takes its references from the ledger. -/
theorem Exact.addBlock (he : p.Exact ∅ (l + y.refs)) : (p.addBlock y).2.Exact ∅ l := by
  refine fun r => (he r).congr fun h _ => ?_
  have hold : ∑ b ∈ range p.blocks.size, (p.addBlock y).2.refsOf r h b = ∑ b ∈ range p.blocks.size, p.refsOf r h b := by
    refine sum_congr rfl fun b hb => ?_
    have hne : b ≠ p.blocks.size := Nat.ne_of_lt (mem_range.mp hb)
    simp [refsOf, Program.addBlock, Array.getElem?_push, hne]
  have hnew : (p.addBlock y).2.refsOf r h p.blocks.size = y.refs r h := refsOf_some (by simp [Program.addBlock])
  have hsize : (p.addBlock y).2.blocks.size = p.blocks.size + 1 := Array.size_push _
  simp only [outside, sdiff_empty, hsize, sum_range_succ, hold, hnew, Pi.add_apply]
  show _ = (p.registry r).palette.count h + _ + _
  omega

theorem Exact.relinked (he : p.Exact skip l) (hq : Relinked p q) : q.Exact skip l := by
  intro r
  have hreg : q.registry r = p.registry r := by rw [registry, registry, hq.registries]
  have hrefs : ∀ h b, q.refsOf r h b = p.refsOf r h b := by
    intro h b
    obtain ⟨parent, hb⟩ := hq.blocks b
    rw [refsOf, refsOf, hb]
    cases p.blocks[b]? <;> rfl
  rw [hreg]
  exact (he r).congr fun h _ => by simp only [outside, hreg, hq.sub.size, hrefs]

/-! ## Destroying -/

/-- The slots of a block that was set aside are cleared one by one, if nested blocks can be destroyed. -/
theorem Exact.destroySlots {n : Nat}
    (ih : ∀ {c q skip l}, Exact q skip l → q.Nested → (∀ d, q.Reaches c d → d ∉ skip) →
      (Program.destroyTree n c q).Exact skip l)
    (hp : p.Nested) (hx : p.blocks[b]? = some x) (hb : ∀ c, p.Reaches b c → c ∉ skip) (hs : List Handle) :
    ∀ (ss : List Slot) (q : Program), (∀ s ∈ ss, s ∈ x.slots) → Sub p q →
      q.Exact (insert b skip) (l + refs x.registry (hs ++ definitions ss)) →
      let q' := ss.foldl
        (fun p s => match s.payload with
          | .block c => Program.destroyTree n c p
          | .definition h => p.drop x.registry h
          | _ => p) q
      Sub p q' ∧ q'.Exact (insert b skip) (l + refs x.registry hs) := by
  intro ss
  induction ss with
  | nil => exact fun q _ hsub hq => ⟨hsub, by simpa [definitions] using hq⟩
  | cons s ss ihs =>
    intro q hmem hsub hq
    have hmem' : ∀ s ∈ ss, s ∈ x.slots := fun s hs => hmem s (List.mem_cons_of_mem _ hs)
    rw [List.foldl_cons]
    cases hs' : s.payload with
    | block c =>
      have hnest : p.Nests b c := ⟨x, hx, s, hmem s List.mem_cons_self, hs'⟩
      refine ihs _ hmem' (hsub.trans (pruned_destroyTree n c q).toSub) (ih ?_ (hp.sub hsub) fun d hd => ?_)
      · simpa [definitions, hs', Payload.definition?] using hq
      · have hcd := hsub.reaches hd
        rw [mem_insert, not_or]
        refine ⟨?_, hb d (hcd.head hnest)⟩
        rintro rfl
        exact hp.acyclic d (Relation.TransGen.head' hnest hcd)
    | definition h =>
      refine ihs _ hmem' (hsub.trans (.of_eq (blocks_drop _ _ _))) (Exact.drop (hq.congr fun r h' _ => ?_))
      simp only [definitions, List.filterMap_cons, hs', Payload.definition?, Pi.add_apply, refs]
      split
      · simp only [List.count_append, List.count_cons, List.count_nil]
        omega
      · rfl
    | text t => exact ihs _ hmem' hsub (by simpa [definitions, hs', Payload.definition?] using hq)
    | const t => exact ihs _ hmem' hsub (by simpa [definitions, hs', Payload.definition?] using hq)

theorem Exact.destroyTree {n : Nat} (he : p.Exact skip l) (hp : p.Nested) (hb : ∀ c, p.Reaches b c → c ∉ skip) :
    (destroyTree n b p).Exact skip l := by
  induction n generalizing b p skip l with
  | zero => exact he
  | succ n ih =>
    rw [Program.destroyTree]
    split
    · exact he
    · rename_i x hx
      obtain ⟨hsub, hdone⟩ := destroySlots ih hp hx hb [x.handle] x.slots p (fun _ hs => hs) (.refl p)
        (he.hide (hb b .refl) hx)
      refine Exact.reveal ((Exact.drop hdone).congr fun r h hz => ?_) (hb b .refl) ?_
      · have hne : Handle.zero ≠ h := fun h0 => hz (by rw [← h0]; rfl)
        simp [Block.refs, refs, definitions, hne]
      · rw [blocks_drop]
        exact Nat.lt_of_lt_of_eq (Array.getElem?_eq_some_iff.mp hx).1 hsub.size.symm

end Program

end BlockEngine
