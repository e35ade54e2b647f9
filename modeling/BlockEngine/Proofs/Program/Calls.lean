/-
  BlockEngine.Proofs.Program.Calls — sequences of operations on registries and trees.

  A `Call` is one operation that a caller can make, with its arguments; it is refused, breaks down or
  goes through, and what it has changed by then stays. No call both puts records to use and frees some.

  Proved of every sequence of calls from a program without blocks:
  - `evolves_edit`: what a call does to a registry is a sequence of effects (`Registry.Evolves`).
  - `arena_after`: every registry's free list and counts are in order.
  - `roomy_after`: the generation of a record is one more than the times it was freed, so it comes
    around only after 2^32 - 1 times.
-/

import BlockEngine.Program.Chain
import BlockEngine.Proofs.Registry.Handles
import BlockEngine.Registry.Procedure

namespace BlockEngine

/-! ## Running an edit -/

namespace Edit

variable {α β : Type}

theorem run_bind (e : Edit α) (f : α → Edit β) (p : Program) :
    (e >>= f).run p =
      match e.run p with
      | (.ok a, q) => (f a).run q
      | (.error x, q) => (.error x, q) := by
  have h : (e >>= f).run p = (ExceptT.bindCont f (e.run p).1) (e.run p).2 := rfl
  rw [h]
  obtain ⟨a | a, q⟩ := e.run p <;> rfl

/-- A slot is copied by its payload. -/
theorem copySlot_eq (copy : BlockId → Edit BlockId) (r : RegistryId) (s : Slot) :
    copySlot copy r s =
      match s.payload with
      | .block c => do return s.bare.hold (.block (← copy c))
      | .definition h =>
        if h.isZero then pure s.bare
        else do
          match ← onRegistry r fun x => x.copyDefinition h with
          | .ok h => return s.bare.hold (.definition h)
          | .error e => crash (copyFault e)
      | _ => if s.type = .block then crash (.error (.access .absent)) else pure s.bare := by
  obtain ⟨input, type, text, block, definition⟩ := s
  cases type <;> cases block <;> rfl

end Edit

/-! ## What an edit does to the registries -/

namespace Program

/-- Some effects on each registry. -/
structure Evolves (frees lists : Bool) (p q : Program) : Prop where
  size : q.registries.size = p.registries.size
  registry : ∀ r, Registry.Evolves frees lists (p.registry r) (q.registry r)

variable {frees lists : Bool} {p q s : Program}

theorem Evolves.refl (p : Program) : Evolves frees lists p p := ⟨rfl, fun _ => .refl _⟩

theorem Evolves.trans (h : Evolves frees lists p q) (h' : Evolves frees lists q s) : Evolves frees lists p s :=
  ⟨h'.size.trans h.size, fun r => (h.registry r).trans (h'.registry r)⟩

/-- Blocks and chains are no part of a registry. -/
theorem Evolves.of_eq (h : q.registries = p.registries) : Evolves frees lists p q := by
  refine ⟨by rw [h], fun r => ?_⟩
  rw [Program.registry, Program.registry, h]
  exact .refl _

theorem registry_setRegistry (r r' : RegistryId) (x : Registry) (p : Program) :
    (p.setRegistry r x).registry r' = if r' = r ∧ r < p.registries.size then x else p.registry r' := by
  unfold setRegistry registry
  simp only [Array.getElem?_setIfInBounds]
  by_cases h : r = r'
  · subst h
    by_cases hr : r < p.registries.size <;> simp [hr]
  · simp [h, Ne.symm h]

theorem setRegistry_self (r : RegistryId) (p : Program) : p.setRegistry r (p.registry r) = p := by
  have h : p.registries.setIfInBounds r (p.registry r) = p.registries := by
    apply Array.ext_getElem?
    intro i
    rw [Array.getElem?_setIfInBounds, registry]
    by_cases hi : r = i
    · subst hi
      by_cases hr : r < p.registries.size <;> simp [hr]
    · simp [hi]
  rw [setRegistry, h]

theorem Evolves.setRegistry {r : RegistryId} {x : Registry} (h : Registry.Evolves frees lists (p.registry r) x) :
    Evolves frees lists p (p.setRegistry r x) := by
  refine ⟨Array.size_setIfInBounds, fun r' => ?_⟩
  rw [registry_setRegistry]
  split
  · rename_i hr
    rw [hr.1]
    exact h
  · exact .refl _

theorem foldl_rel {α : Type} {R : Program → Program → Prop} (hr : ∀ p, R p p)
    (ht : ∀ {p q s}, R p q → R q s → R p s) {f : Program → α → Program} (hf : ∀ p a, R p (f p a))
    (as : List α) (p : Program) : R p (as.foldl f p) := by
  induction as generalizing p with
  | nil => exact hr p
  | cons a as ih => exact ht (hf p a) (ih _)

theorem evolves_foldl {α : Type} {f : Program → α → Program} (hf : ∀ p a, Evolves frees lists p (f p a))
    (as : List α) (p : Program) : Evolves frees lists p (as.foldl f p) := foldl_rel .refl .trans hf as p

/-! Operations that free. -/

/-- The programs differ in chains and in the parents of blocks. -/
structure Relinked (p q : Program) : Prop where
  registries : q.registries = p.registries
  blocks : ∀ b : BlockId, ∃ parent, q.blocks[b]? = p.blocks[b]?.map ({ · with parent := parent })

theorem Relinked.of_eq (hr : q.registries = p.registries) (hb : q.blocks = p.blocks) : Relinked p q := by
  refine ⟨hr, fun b => ⟨p.blocks[b]?.bind (·.parent), ?_⟩⟩
  rw [hb]
  cases p.blocks[b]? <;> rfl

theorem Relinked.refl (p : Program) : Relinked p p := .of_eq rfl rfl

theorem Relinked.trans (h : Relinked p q) (h' : Relinked q s) : Relinked p s := by
  refine ⟨h'.registries.trans h.registries, fun b => ?_⟩
  obtain ⟨f, hf⟩ := h.blocks b
  obtain ⟨g, hg⟩ := h'.blocks b
  exact ⟨g, by rw [hg, hf, Option.map_map]; rfl⟩

theorem relinked_setParent {b : BlockId} {x : Block} (hx : p.blocks[b]? = some x) (parent : Option BlockId) :
    Relinked p (p.setBlock b { x with parent := parent }) := by
  refine ⟨rfl, fun c => ?_⟩
  simp only [setBlock, Array.getElem?_setIfInBounds]
  by_cases hb : b = c
  · subst hb
    refine ⟨parent, ?_⟩
    rw [hx]
    simp [(Array.getElem?_eq_some_iff.mp hx).1]
  · simpa [hb] using (Relinked.refl p).blocks c

theorem relinked_relinkTree (n : Nat) (b : BlockId) (parent : Option BlockId) (p : Program) :
    Relinked p (relinkTree n b parent p) := by
  induction n generalizing b parent p with
  | zero => exact .refl p
  | succ n ih =>
    rw [relinkTree]
    split
    · exact .refl p
    · rename_i x hx
      refine (relinked_setParent hx parent).trans (foldl_rel .refl .trans (fun p s => ?_) _ _)
      split
      · exact ih _ _ _
      · exact .refl p

theorem relinked_relink (b : BlockId) (parent : Option BlockId) (p : Program) : Relinked p (p.relink b parent) :=
  relinked_relinkTree _ b parent p

theorem Relinked.evolves (h : Relinked p q) : Evolves frees lists p q := .of_eq h.registries

theorem relinked_detachAll (bs : List BlockId) (p : Program) : Relinked p (p.detachAll bs) :=
  foldl_rel .refl .trans (fun p b => relinked_relink b none p) bs p

theorem evolves_drop (r : RegistryId) (h : Handle) (p : Program) : Evolves true false p (p.drop r h) := by
  unfold drop
  split
  · exact .refl p
  · exact .setRegistry (Registry.release_evolves h _)

theorem evolves_destroyTree (n : Nat) (b : BlockId) (p : Program) : Evolves true false p (destroyTree n b p) := by
  induction n generalizing b p with
  | zero => exact .refl p
  | succ n ih =>
    rw [destroyTree]
    split
    · exact .refl p
    · refine Evolves.trans (evolves_foldl ?_ _ _) ((evolves_drop _ _ _).trans (.of_eq rfl))
      intro p s
      split
      · exact ih _ _
      · exact evolves_drop _ _ _
      · exact .refl p

theorem evolves_destroyBlock (b : BlockId) (p : Program) : Evolves true false p (p.destroyBlock b) :=
  evolves_destroyTree _ b p

theorem evolves_clearPayload (r : RegistryId) (s : Slot) (p : Program) :
    Evolves true false p (p.clearPayload r s) := by
  unfold clearPayload
  split
  · exact evolves_destroyBlock _ p
  · exact evolves_drop _ _ p
  · exact .refl p

theorem evolves_setSlot (b : BlockId) (i : Nat) (s : Slot) (p : Program) :
    Evolves frees lists p (p.setSlot b i s) := by
  unfold setSlot
  split <;> exact .of_eq rfl

theorem evolves_destroyChain (c : ChainId) (p : Program) : Evolves true false p (p.destroyChain c) :=
  (evolves_foldl (fun p b => evolves_destroyBlock b p) _ p).trans (.of_eq rfl)

end Program

namespace Edit

variable {α β : Type} {frees lists : Bool}

/-- Whatever comes of it, an edit has some effects on each registry. -/
def Evolves (frees lists : Bool) (e : Edit α) : Prop := ∀ p, Program.Evolves frees lists p (e.run p).2

theorem evolves_pure (a : α) : Evolves frees lists (pure a : Edit α) := fun p => .refl p

theorem evolves_crash (f : Fault) : Evolves frees lists (crash f : Edit α) := fun p => .refl p

theorem evolves_get : Evolves frees lists (get : Edit Program) := fun p => .refl p

/-- What holds of each part of an edit holds of the whole, for a preorder. -/
theorem rel_bind {R : Program → Program → Prop} (ht : ∀ {p q s}, R p q → R q s → R p s) {e : Edit α}
    {f : α → Edit β} (he : ∀ p, R p (e.run p).2) (hf : ∀ a p, R p ((f a).run p).2) (p : Program) :
    R p ((e >>= f).run p).2 := by
  have h := he p
  rw [run_bind]
  generalize e.run p = o at h
  obtain ⟨x | a, q⟩ := o
  · exact h
  · exact ht h (hf a q)

theorem rel_mapM {R : Program → Program → Prop} (hr : ∀ p, R p p) (ht : ∀ {p q s}, R p q → R q s → R p s)
    {f : α → Edit β} (hf : ∀ a p, R p ((f a).run p).2) (as : List α) (p : Program) : R p ((as.mapM f).run p).2 := by
  induction as generalizing p with
  | nil =>
    rw [List.mapM_nil]
    exact hr p
  | cons a as ih =>
    rw [List.mapM_cons]
    refine rel_bind (R := R) ht (hf a) (fun b => ?_) p
    exact rel_bind (R := R) ht ih fun bs q => hr q

theorem evolves_bind {e : Edit α} {f : α → Edit β} (he : Evolves frees lists e) (hf : ∀ a, Evolves frees lists (f a)) :
    Evolves frees lists (e >>= f) := rel_bind .trans he hf

theorem evolves_modify {f : Program → Program} (h : ∀ p, Program.Evolves frees lists p (f p)) :
    Evolves frees lists (modify f : Edit Unit) := h

theorem evolves_ofState {f : Program → α × Program} (h : ∀ p, Program.Evolves frees lists p (f p).2) :
    Evolves frees lists (ofState f) := h

theorem evolves_onRegistry {r : RegistryId} {f : Registry → α × Registry}
    (h : ∀ x, Registry.Evolves frees lists x (f x).2) : Evolves frees lists (onRegistry r f) :=
  fun p => .setRegistry (h (p.registry r))

theorem evolves_mapM {f : α → Edit β} (hf : ∀ a, Evolves frees lists (f a)) (as : List α) :
    Evolves frees lists (as.mapM f) := rel_mapM .refl .trans hf as

theorem evolves_block (b : BlockId) : Evolves frees lists (block b) := by
  refine evolves_bind evolves_get fun p => ?_
  split
  · exact evolves_pure _
  · exact evolves_crash _

theorem evolves_slot (b : BlockId) (i : Int) : Evolves frees lists (slot b i) := by
  refine evolves_bind (evolves_block b) fun x => ?_
  split
  · exact evolves_pure _
  · exact evolves_crash _

/-! Operations that put to use. -/

theorem evolves_newSlot (r : RegistryId) (id : Text) (i : Input) : Evolves false false (newSlot r id i) := by
  unfold newSlot
  split
  · exact evolves_pure _
  · exact evolves_bind (evolves_onRegistry fun x => x.alloc_evolves _) fun _ => evolves_pure _
  · exact evolves_pure _

theorem evolves_newBlock (r : RegistryId) (h : Handle) : Evolves false false (newBlock r h) := by
  refine evolves_bind (evolves_onRegistry (Registry.retain_evolves false h)) fun o => ?_
  split
  · exact evolves_pure _
  · refine evolves_bind evolves_get fun p => ?_
    dsimp only
    split
    · exact evolves_crash _
    · refine evolves_bind (evolves_mapM (evolves_newSlot r _) _) fun _ => ?_
      exact evolves_bind (evolves_ofState fun p => .of_eq rfl) fun _ => evolves_pure _

theorem evolves_copySlot {copy : BlockId → Edit BlockId} (hc : ∀ b, Evolves false false (copy b)) (r : RegistryId)
    (s : Slot) : Evolves false false (copySlot copy r s) := by
  unfold copySlot
  split
  · split
    · exact evolves_crash _
    · exact evolves_bind (hc _) fun _ => evolves_pure _
  · split
    · exact evolves_pure _
    · refine evolves_bind (evolves_onRegistry (Registry.copyDefinition_evolves _)) fun o => ?_
      split
      · exact evolves_pure _
      · exact evolves_crash _
  · exact evolves_pure _

theorem evolves_copyTree (n : Nat) (b : BlockId) (parent : Option BlockId) :
    Evolves false false (copyTree n b parent) := by
  induction n generalizing b parent with
  | zero => exact evolves_crash _
  | succ n ih =>
    refine evolves_bind (evolves_block b) fun x => ?_
    refine evolves_bind (evolves_onRegistry (Registry.retain_evolves false _)) fun o => ?_
    split
    · exact evolves_crash _
    · refine evolves_bind (evolves_ofState fun p => .of_eq rfl) fun c => ?_
      refine evolves_bind (evolves_mapM (evolves_copySlot (fun b => ih b _) _) _) fun slots => ?_
      exact evolves_bind (evolves_modify fun p => .of_eq rfl) fun _ => evolves_pure _

theorem evolves_copyBlock (b : BlockId) (parent : Option BlockId) : Evolves false false (copyBlock b parent) :=
  evolves_bind evolves_get fun _ => evolves_copyTree _ b parent

theorem evolves_copyBlocks (bs : List BlockId) : Evolves false false (copyBlocks bs) :=
  evolves_bind (evolves_mapM (fun b => evolves_copyBlock b none) bs) fun _ => evolves_ofState fun _ => .of_eq rfl

theorem evolves_copyRun (c : ChainId) (i : Int) : Evolves false false (copyRun c i) := by
  refine evolves_bind evolves_get fun p => ?_
  split
  · exact evolves_pure _
  · exact evolves_bind (evolves_copyBlocks _) fun _ => evolves_pure _

theorem evolves_copyTail (c : ChainId) (i : Int) : Evolves false false (copyTail c i) := by
  refine evolves_bind evolves_get fun p => ?_
  dsimp only
  split
  · exact evolves_pure _
  · exact evolves_bind (evolves_copyBlocks _) fun _ => evolves_pure _

/-! Operations on slots and chains. -/

theorem evolves_replace (name : Text) (input : InputType) (b : BlockId) (i : Int) (payload : Payload) :
    Evolves true false (replace name input b i payload) := by
  refine evolves_bind (evolves_slot b i) fun s => ?_
  split
  · refine evolves_bind (evolves_block b) fun x => evolves_modify fun p => ?_
    exact (Program.evolves_clearPayload _ s p).trans (Program.evolves_setSlot _ _ _ _)
  · exact evolves_crash _

theorem evolves_nest (b : BlockId) (i : Int) (child : BlockId) : Evolves true false (nest b i child) :=
  evolves_bind (evolves_replace _ _ b i _) fun _ => evolves_modify fun p => (Program.relinked_relink child _ p).evolves

theorem evolves_takeBlock (b : BlockId) (i : Int) : Evolves frees lists (takeBlock b i) := by
  refine evolves_bind (evolves_slot b i) fun s => ?_
  split
  · refine evolves_bind (evolves_modify fun p => Program.evolves_setSlot _ _ _ p) fun _ => ?_
    split
    · exact evolves_crash _
    · refine evolves_bind (evolves_block _) fun x => ?_
      exact evolves_bind (evolves_modify fun p => .of_eq rfl) fun _ => evolves_pure _
  · exact evolves_pure _

theorem evolves_clear (b : BlockId) (i : Int) : Evolves true false (clear b i) := by
  refine evolves_bind (evolves_slot b i) fun s => ?_
  refine evolves_bind (evolves_block b) fun x => evolves_modify fun p => ?_
  exact (Program.evolves_clearPayload _ s p).trans (Program.evolves_setSlot _ _ _ _)

/-! Operations that only move blocks. -/

/-- Whatever comes of it, an edit moves blocks at most. -/
def Relinks (e : Edit α) : Prop := ∀ p, Program.Relinked p (e.run p).2

theorem Relinks.evolves {e : Edit α} (he : e.Relinks) : e.Evolves frees lists := fun p => (he p).evolves

theorem relinks_bind {e : Edit α} {f : α → Edit β} (he : Relinks e) (hf : ∀ a, Relinks (f a)) : Relinks (e >>= f) :=
  rel_bind .trans he hf

theorem relinks_pure (a : α) : Relinks (pure a : Edit α) := fun p => .refl p

theorem relinks_get : Relinks (get : Edit Program) := fun p => .refl p

theorem relinks_modify {f : Program → Program} (h : ∀ p, Program.Relinked p (f p)) :
    Relinks (modify f : Edit Unit) := h

theorem relinks_newChain (bs : List BlockId) : Relinks (newChain bs) :=
  fun p => (Program.relinked_detachAll bs p).trans (.of_eq rfl rfl)

theorem relinks_append (c : ChainId) (bs : List BlockId) : Relinks (append c bs) :=
  relinks_modify fun p => (Program.relinked_detachAll bs p).trans (.of_eq rfl rfl)

theorem relinks_insert (dst src : ChainId) (i : Int) : Relinks (insert dst src i) := by
  refine relinks_bind relinks_get fun p => ?_
  split
  · exact relinks_pure _
  · refine relinks_bind (relinks_modify fun p => .of_eq rfl rfl) fun _ => ?_
    refine relinks_bind relinks_get fun p => ?_
    dsimp only
    split
    · exact fun p => .refl p
    · refine relinks_bind (relinks_modify fun p => ?_) fun _ => relinks_pure _
      refine Program.Relinked.trans ?_ (Program.relinked_detachAll _ _)
      exact .of_eq rfl rfl

theorem relinks_detach (dst src : ChainId) (i : Int) : Relinks (detach dst src i) := by
  refine relinks_bind relinks_get fun p => ?_
  split
  · exact relinks_pure _
  · refine relinks_bind (relinks_modify fun p => .of_eq rfl rfl) fun _ => ?_
    refine relinks_bind (relinks_append _ _) fun _ => ?_
    exact relinks_bind (relinks_modify fun p => Program.relinked_detachAll _ p) fun _ => relinks_pure _

end Edit

/-! ## Calls -/

/-- One operation on registries, blocks, slots or chains. -/
inductive Call where
  | register (r : RegistryId) (d : Definition)
  | unregister (r : RegistryId) (h : Handle)
  | newCustom (r : RegistryId) (d : Definition)
  | newProcedure (r : RegistryId) (name : Text) (params : List Text)
  | copyDefinition (r : RegistryId) (h : Handle)
  | retain (r : RegistryId) (h : Handle)
  | release (r : RegistryId) (h : Handle)
  | newBlock (r : RegistryId) (h : Handle)
  | copyBlock (b : BlockId) (parent : Option BlockId)
  | destroyBlock (b : BlockId)
  | setText (b : BlockId) (i : Int) (t : Text)
  | setConst (b : BlockId) (i : Int) (t : Text)
  | nest (b : BlockId) (i : Int) (child : BlockId)
  | takeBlock (b : BlockId) (i : Int)
  | setDefinition (b : BlockId) (i : Int) (h : Handle)
  | clear (b : BlockId) (i : Int)
  | newChain (bs : List BlockId)
  | append (c : ChainId) (bs : List BlockId)
  | insert (dst src : ChainId) (i : Int)
  | detach (dst src : ChainId) (i : Int)
  | copyRun (c : ChainId) (i : Int)
  | copyTail (c : ChainId) (i : Int)
  | destroyChain (c : ChainId)

namespace Call

def quiet {α : Type} (e : Edit α) : Edit (Option Handle) := do
  let _ ← e
  return none

/-- What the call does, and the handle that it returns if it returns one. -/
def edit : Call → Edit (Option Handle)
  | register r d => do return some (← Edit.onRegistry r (·.register d))
  | newCustom r d => do return some (← Edit.onRegistry r (·.alloc d))
  | newProcedure r name params => do return some (← Edit.onRegistry r (·.newProcedure name params))
  | copyDefinition r h => do return (← Edit.onRegistry r (·.copyDefinition h)).toOption
  | unregister r h => quiet (Edit.onRegistry r (·.unregister h))
  | retain r h => quiet (Edit.onRegistry r (·.retain h))
  | release r h => quiet (Edit.onRegistry r (·.release h))
  | newBlock r h => quiet (Edit.newBlock r h)
  | copyBlock b parent => quiet (Edit.copyBlock b parent)
  | destroyBlock b => quiet (modify fun p => p.destroyBlock b : Edit Unit)
  | setText b i t => quiet (Edit.setText b i t)
  | setConst b i t => quiet (Edit.setConst b i t)
  | nest b i child => quiet (Edit.nest b i child)
  | takeBlock b i => quiet (Edit.takeBlock b i)
  | setDefinition b i h => quiet (Edit.setDefinition b i h)
  | clear b i => quiet (Edit.clear b i)
  | newChain bs => quiet (Edit.newChain bs)
  | append c bs => quiet (Edit.append c bs)
  | insert dst src i => quiet (Edit.insert dst src i)
  | detach dst src i => quiet (Edit.detach dst src i)
  | copyRun c i => quiet (Edit.copyRun c i)
  | copyTail c i => quiet (Edit.copyTail c i)
  | destroyChain c => quiet (modify fun p => p.destroyChain c : Edit Unit)

def frees : Call → Bool
  | register .. | newCustom .. | newProcedure .. | copyDefinition .. | retain .. | newBlock .. | copyBlock ..
  | copyRun .. | copyTail .. => false
  | _ => true

def lists : Call → Bool
  | register .. | unregister .. => true
  | _ => false

theorem evolves_quiet {α : Type} {frees lists : Bool} {e : Edit α} (he : e.Evolves frees lists) :
    (quiet e).Evolves frees lists :=
  Edit.evolves_bind he fun _ => Edit.evolves_pure _

theorem evolves_answer {α : Type} {frees lists : Bool} {r : RegistryId} {f : Registry → α × Registry}
    {g : α → Option Handle} (hf : ∀ x, Registry.Evolves frees lists x (f x).2) :
    (do return g (← Edit.onRegistry r f) : Edit (Option Handle)).Evolves frees lists :=
  Edit.evolves_bind (Edit.evolves_onRegistry hf) fun _ => Edit.evolves_pure _

theorem evolves_edit (c : Call) : c.edit.Evolves c.frees c.lists := by
  cases c with
  | register r d => exact evolves_answer (Registry.register_evolves d)
  | newCustom r d => exact evolves_answer (Registry.alloc_evolves d)
  | newProcedure r name ps => exact evolves_answer (Registry.newProcedure_evolves name ps)
  | copyDefinition r h => exact evolves_answer (Registry.copyDefinition_evolves h)
  | unregister r h => exact evolves_quiet (Edit.evolves_onRegistry (Registry.unregister_evolves h))
  | retain r h => exact evolves_quiet (Edit.evolves_onRegistry (Registry.retain_evolves _ h))
  | release r h => exact evolves_quiet (Edit.evolves_onRegistry (Registry.release_evolves h))
  | newBlock r h => exact evolves_quiet (Edit.evolves_newBlock r h)
  | copyBlock b parent => exact evolves_quiet (Edit.evolves_copyBlock b parent)
  | destroyBlock b => exact evolves_quiet (Edit.evolves_modify (Program.evolves_destroyBlock b))
  | setText b i _ => exact evolves_quiet (Edit.evolves_replace _ _ b i _)
  | setConst b i _ => exact evolves_quiet (Edit.evolves_replace _ _ b i _)
  | setDefinition b i _ => exact evolves_quiet (Edit.evolves_replace _ _ b i _)
  | nest b i child => exact evolves_quiet (Edit.evolves_nest b i child)
  | takeBlock b i => exact evolves_quiet (Edit.evolves_takeBlock b i)
  | clear b i => exact evolves_quiet (Edit.evolves_clear b i)
  | newChain bs => exact evolves_quiet (Edit.relinks_newChain bs).evolves
  | append c bs => exact evolves_quiet (Edit.relinks_append c bs).evolves
  | insert dst src i => exact evolves_quiet (Edit.relinks_insert dst src i).evolves
  | detach dst src i => exact evolves_quiet (Edit.relinks_detach dst src i).evolves
  | copyRun c i => exact evolves_quiet (Edit.evolves_copyRun c i)
  | copyTail c i => exact evolves_quiet (Edit.evolves_copyTail c i)
  | destroyChain c => exact evolves_quiet (Edit.evolves_modify (Program.evolves_destroyChain c))

end Call

namespace Program

def start (n : Nat) : Program := { registries := Array.replicate n {} }

def after (p : Program) (calls : List Call) : Program := calls.foldl (fun p c => (c.edit.run p).2) p

def timesFreed (r : RegistryId) (i : Nat) : Program → List Call → Nat
  | _, [] => 0
  | p, c :: rest =>
    let q := (c.edit.run p).2
    (if Registry.Freed (p.registry r) (q.registry r) i then 1 else 0) + timesFreed r i q rest

/-- Handles have not run out: a record's number has 32 bits, and so has its generation, which starts at one
    and must not come around to zero. -/
structure Fits (p : Program) (calls : List Call) : Prop where
  records : ∀ r, ((p.after calls).registry r).records.size ≤ 2 ^ 32
  freed : ∀ r i, timesFreed r i p calls < 2 ^ 32 - 1

theorem registry_start (n : Nat) (r : RegistryId) : (start n).registry r = {} := by
  simp only [start, registry, Array.getElem?_replicate]
  split <;> rfl

theorem registry_of_le {p : Program} {r : RegistryId} (h : p.registries.size ≤ r) : p.registry r = {} := by
  simp [registry, Array.getElem?_eq_none h]

variable {p : Program} {c : Call} {a b calls : List Call} {r : RegistryId}

theorem after_append (p : Program) (a b : List Call) : p.after (a ++ b) = (p.after a).after b := List.foldl_append

theorem after_cons (p : Program) (c : Call) (calls : List Call) :
    p.after (c :: calls) = (c.edit.run p).2.after calls := rfl

theorem timesFreed_append (i : Nat) (p : Program) (a b : List Call) :
    timesFreed r i p (a ++ b) = timesFreed r i p a + timesFreed r i (p.after a) b := by
  induction a generalizing p with
  | nil => simp [timesFreed, after]
  | cons c a ih => rw [List.cons_append, timesFreed, ih, timesFreed, after_cons, Nat.add_assoc]

theorem timesFreed_le (r : RegistryId) (i : Nat) (p : Program) (calls : List Call) :
    timesFreed r i p calls ≤ calls.length := by
  induction calls generalizing p with
  | nil => exact Nat.le_refl _
  | cons c rest ih =>
    have h := ih (c.edit.run p).2
    rw [timesFreed, List.length_cons]
    split <;> omega

theorem arena_after (hp : ∀ r, (p.registry r).Arena) (calls : List Call) (r : RegistryId) :
    ((p.after calls).registry r).Arena := by
  induction calls generalizing p with
  | nil => exact hp r
  | cons c rest ih => exact ih fun r => (hp r).of_evolves ((c.evolves_edit p).registry r)

theorem size_registries_after (p : Program) (calls : List Call) :
    (p.after calls).registries.size = p.registries.size := by
  induction calls generalizing p with
  | nil => rfl
  | cons c rest ih => exact (ih _).trans (c.evolves_edit p).size

theorem arena_start (n : Nat) (r : RegistryId) : ((start n).registry r).Arena := by
  rw [registry_start]
  exact .new

theorem generation_after (hp : ∀ r, (p.registry r).Arena) (calls : List Call) (i : Nat) :
    ((p.after calls).registry r).generation i = (p.registry r).generation i + (timesFreed r i p calls).toUInt32 := by
  induction calls generalizing p with
  | nil => simp [after, timesFreed]
  | cons c rest ih =>
    have hq : ∀ r, ((c.edit.run p).2.registry r).Arena := fun r => (hp r).of_evolves ((c.evolves_edit p).registry r)
    rw [after_cons, ih hq, Registry.generation_evolves (hp r) ((c.evolves_edit p).registry r), timesFreed]
    simp only [UInt32.add_assoc]
    congr 1
    split <;> simp

theorem size_le_after (p : Program) (calls : List Call) (r : RegistryId) :
    (p.registry r).records.size ≤ ((p.after calls).registry r).records.size := by
  induction calls generalizing p with
  | nil => exact Nat.le_refl _
  | cons c rest ih => exact Nat.le_trans (Registry.size_le_of_evolves ((c.evolves_edit p).registry r)) (ih _)

/-- A sequence that fits does so up to any point. -/
theorem Fits.of_append (hf : p.Fits (a ++ b)) : p.Fits a where
  records r := by
    refine Nat.le_trans ?_ (hf.records r)
    rw [after_append]
    exact size_le_after _ b r
  freed r i := by
    have h := hf.freed r i
    rw [timesFreed_append] at h
    omega

/-- Without that many times, no generation has come around, however many records there are. -/
theorem unworn_after {n : Nat} (hf : ∀ i, timesFreed r i (start n) calls < 2 ^ 32 - 1) :
    (((start n).after calls).registry r).Unworn := by
  intro i hz
  rw [generation_after (arena_start n), registry_start] at hz
  have hlt := hf i
  have hnat := congrArg UInt32.toNat hz
  simp only [Registry.generation, UInt32.toNat_add,
    Registry.toNat_toUInt32 (Nat.lt_of_lt_of_le hlt (by decide))] at hnat
  simp at hnat
  omega

theorem roomy_after {n : Nat} (hf : (start n).Fits calls) (r : RegistryId) :
    (((start n).after calls).registry r).Roomy := ⟨unworn_after (hf.freed r), hf.records r⟩

end Program

end BlockEngine
