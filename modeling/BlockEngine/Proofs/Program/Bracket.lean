/-
  BlockEngine.Proofs.Program.Bracket — the bracket tree of a chain.

  A chain whose bodies nest is a forest: plain blocks, and groups of a control block with its body,
  closed by a terminator or by a continuation with a body of its own and so on. `parse` reads blocks
  from the last to the first and keeps the groups whose opener it has yet to meet.

  Proved:
  - `blocks_of_tree`: a chain's tree lists the blocks of the chain, each in a place for its type.
  - `validate_iff_tree`: the chains that pass the check of their nesting are those that have a tree.
-/

import BlockEngine.Program.Chain

namespace BlockEngine

mutual

/-- A run of blocks in which every body is closed. -/
inductive Forest where
  | nil
  | leaf (b : BlockId) (rest : Forest)
  /-- A control block with its body, what closes the body, and what comes after the group. -/
  | group (b : BlockId) (body : Forest) (tail : Tail) (rest : Forest)

/-- What closes a body. -/
inductive Tail where
  | stop (b : BlockId)
  /-- A continuation, its body, and what closes that. -/
  | more (b : BlockId) (body : Forest) (tail : Tail)

end

mutual

def Forest.blocks : Forest → List BlockId
  | .nil => []
  | .leaf b rest => b :: rest.blocks
  | .group b body tail rest => b :: (body.blocks ++ (tail.blocks ++ rest.blocks))

def Tail.blocks : Tail → List BlockId
  | .stop b => [b]
  | .more b body tail => b :: (body.blocks ++ tail.blocks)

end

def Forest.size (f : Forest) : Nat := f.blocks.length

def Tail.size (t : Tail) : Nat := t.blocks.length

theorem Forest.size_leaf (b : BlockId) (rest : Forest) : (Forest.leaf b rest).size = 1 + rest.size := by
  simp [Forest.size, Forest.blocks, Nat.add_comm]

theorem Forest.size_group (b : BlockId) (body : Forest) (tail : Tail) (rest : Forest) :
    (Forest.group b body tail rest).size = 1 + body.size + tail.size + rest.size := by
  simp only [Forest.size, Tail.size, Forest.blocks, List.length_cons, List.length_append]
  omega

theorem Tail.size_more (b : BlockId) (body : Forest) (tail : Tail) :
    (Tail.more b body tail).size = 1 + body.size + tail.size := by
  simp only [Forest.size, Tail.size, Tail.blocks, List.length_cons, List.length_append]
  omega

theorem Tail.size_pos (t : Tail) : 0 < t.size := by
  cases t <;> exact Nat.succ_pos _

mutual

def Forest.depth : Forest → Nat
  | .nil => 0
  | .leaf _ rest => rest.depth
  | .group _ body tail rest => max (body.depth + 1) (max tail.depth rest.depth)

def Tail.depth : Tail → Nat
  | .stop _ => 0
  | .more _ body tail => max (body.depth + 1) tail.depth

end

mutual

def Forest.Typed (type : BlockId → BlockType) : Forest → Prop
  | .nil => True
  | .leaf b rest => ((type b).opens = false ∧ (type b).closes = false) ∧ rest.Typed type
  | .group b body tail rest => type b = .control ∧ body.Typed type ∧ tail.Typed type ∧ rest.Typed type

def Tail.Typed (type : BlockId → BlockType) : Tail → Prop
  | .stop b => type b = .terminator
  | .more b body tail => type b = .continuation ∧ body.Typed type ∧ tail.Typed type

end

def Tail.first : Tail → BlockId
  | .stop b => b
  | .more b _ _ => b

theorem Tail.first_closes {type : BlockId → BlockType} {t : Tail} (h : t.Typed type) :
    (type t.first).closes = true := by
  cases t with
  | stop b =>
    have ht : type b = .terminator := h
    rw [Tail.first, ht]
    rfl
  | more b body tail =>
    have ht : type b = .continuation := h.1
    rw [Tail.first, ht]
    rfl

/-- A group that is closed but not opened yet, and what comes after it. -/
abbrev Pending := Tail × Forest

/-- Reads blocks: the forest before the first block that closes what they do not open, and the
    groups that these close, the innermost first. -/
def parse (type : BlockId → BlockType) : List BlockId → Option (Forest × List Pending)
  | [] => some (.nil, [])
  | b :: bs =>
    match type b, parse type bs with
    | .terminator, some (f, open_) => some (.nil, (.stop b, f) :: open_)
    | .continuation, some (f, (tail, rest) :: open_) => some (.nil, (.more b f tail, rest) :: open_)
    | .control, some (f, (tail, rest) :: open_) => some (.group b f tail rest, open_)
    | .normal, some (f, open_) => some (.leaf b f, open_)
    | .hat, some (f, open_) => some (.leaf b f, open_)
    | _, _ => none

namespace Program

/-- The bracket tree of a chain, if its bodies nest. -/
def tree? (p : Program) (c : ChainId) : Option Forest :=
  match parse (fun b => (p.kindOf b).type) (p.chain c) with
  | some (f, []) => some f
  | _ => none

end Program

/-! ## Reading loses nothing -/

theorem parse_blocks {type : BlockId → BlockType} {bs : List BlockId} {f : Forest} {pending : List Pending}
    (h : parse type bs = some (f, pending)) :
    bs = f.blocks ++ pending.flatMap fun x => x.1.blocks ++ x.2.blocks := by
  induction bs generalizing f pending with
  | nil =>
    cases h
    rfl
  | cons b bs ih =>
    rw [parse] at h
    split at h <;> cases h
    all_goals
      rename_i hp
      rw [ih hp]
      simp [Forest.blocks, Tail.blocks]

theorem parse_typed {type : BlockId → BlockType} {bs : List BlockId} {f : Forest} {pending : List Pending}
    (h : parse type bs = some (f, pending)) :
    f.Typed type ∧ ∀ x ∈ pending, x.1.Typed type ∧ x.2.Typed type := by
  induction bs generalizing f pending with
  | nil =>
    cases h
    exact ⟨trivial, fun _ h => absurd h List.not_mem_nil⟩
  | cons b bs ih =>
    rw [parse] at h
    split at h <;> cases h
    · rename_i ht hp
      obtain ⟨hf, ho⟩ := ih hp
      exact ⟨trivial, List.forall_mem_cons.mpr ⟨⟨ht, hf⟩, ho⟩⟩
    · rename_i ht hp
      obtain ⟨hf, ho⟩ := ih hp
      obtain ⟨⟨htail, hrest⟩, ho⟩ := List.forall_mem_cons.mp ho
      exact ⟨trivial, List.forall_mem_cons.mpr ⟨⟨⟨ht, hf, htail⟩, hrest⟩, ho⟩⟩
    · rename_i ht hp
      obtain ⟨hf, ho⟩ := ih hp
      obtain ⟨⟨htail, hrest⟩, ho⟩ := List.forall_mem_cons.mp ho
      exact ⟨⟨ht, hf, htail, hrest⟩, ho⟩
    · rename_i ht hp
      obtain ⟨hf, ho⟩ := ih hp
      exact ⟨⟨⟨by rw [ht]; rfl, by rw [ht]; rfl⟩, hf⟩, ho⟩
    · rename_i ht hp
      obtain ⟨hf, ho⟩ := ih hp
      exact ⟨⟨⟨by rw [ht]; rfl, by rw [ht]; rfl⟩, hf⟩, ho⟩

/-- A chain's tree lists the blocks of the chain, each in a place for its type. -/
theorem blocks_of_tree {p : Program} {c : ChainId} {f : Forest} (h : p.tree? c = some f) :
    f.blocks = p.chain c ∧ f.Typed fun b => (p.kindOf b).type := by
  unfold Program.tree? at h
  split at h <;> cases h
  rename_i hp
  exact ⟨by simpa using (parse_blocks hp).symm, (parse_typed hp).1⟩

/-! ## Chains that nest -/

/-- How many groups are to be opened before some blocks. -/
def openers (type : BlockId → BlockType) (bs : List BlockId) : Option Nat :=
  (parse type bs).map fun x => x.2.length

theorem openers_cons (type : BlockId → BlockType) (b : BlockId) (bs : List BlockId) :
    openers type (b :: bs) =
      match type b, openers type bs with
      | .terminator, some n => some (n + 1)
      | .continuation, some (n + 1) => some (n + 1)
      | .control, some (n + 1) => some n
      | .normal, some n => some n
      | .hat, some n => some n
      | _, _ => none := by
  unfold openers
  rw [parse]
  rcases parse type bs with - | ⟨f, - | ⟨⟨tail, rest⟩, pending⟩⟩ <;> cases type b <;> rfl

mutual

/-- A forest opens all that it closes. -/
theorem Forest.openers {type : BlockId → BlockType} (f : Forest) (hf : f.Typed type) (bs : List BlockId) :
    BlockEngine.openers type (f.blocks ++ bs) = BlockEngine.openers type bs := by
  cases f with
  | nil => rfl
  | leaf b rest =>
    rw [Forest.Typed] at hf
    obtain ⟨⟨hopens, hcloses⟩, hrest⟩ := hf
    rw [Forest.blocks, List.cons_append, openers_cons, rest.openers hrest]
    cases ht : type b with
    | normal | hat => cases BlockEngine.openers type bs <;> rfl
    | control | continuation => exact absurd (ht ▸ hopens) (by decide)
    | terminator => exact absurd (ht ▸ hcloses) (by decide)
  | group b body tail rest =>
    rw [Forest.Typed] at hf
    obtain ⟨hb, hbody, htail, hrest⟩ := hf
    rw [Forest.blocks, List.cons_append, openers_cons, hb, List.append_assoc, body.openers hbody, List.append_assoc,
      tail.openers htail, rest.openers hrest]
    cases BlockEngine.openers type bs <;> rfl

/-- What closes a body closes it, and opens all else that it closes. -/
theorem Tail.openers {type : BlockId → BlockType} (t : Tail) (ht : t.Typed type) (bs : List BlockId) :
    BlockEngine.openers type (t.blocks ++ bs) = (BlockEngine.openers type bs).map (· + 1) := by
  cases t with
  | stop b =>
    have hb : type b = .terminator := ht
    rw [Tail.blocks, List.singleton_append, openers_cons, hb]
    cases BlockEngine.openers type bs <;> rfl
  | more b body tail =>
    rw [Tail.Typed] at ht
    obtain ⟨hb, hbody, htail⟩ := ht
    rw [Tail.blocks, List.cons_append, openers_cons, hb, List.append_assoc, body.openers hbody, tail.openers htail]
    cases BlockEngine.openers type bs <;> rfl

end

/-- Scanning blocks with some bodies open finds nothing wrong where as many are to be opened
    before them. -/
theorem scan_eq_none_iff (type : BlockId → BlockType) (id : BlockId → Text) (bs : List BlockId) (depth i : Nat) :
    Balance.scan depth i (bs.map fun b => (type b, id b)) = none ↔ openers type bs = some depth := by
  induction bs generalizing depth i with
  | nil => cases depth <;> simp [Balance.scan, openers, parse]
  | cons b bs ih =>
    rw [openers_cons, List.map_cons]
    cases depth with
    | zero =>
      cases type b <;> simp only [Balance.scan, ih] <;> rcases openers type bs with - | - | n <;> simp
    | succ depth =>
      cases type b <;> simp only [Balance.scan, ih] <;> rcases openers type bs with - | - | n <;> simp
      exact eq_comm

/-- The chains that pass the check of their nesting are those that have a tree. -/
theorem validate_iff_tree (p : Program) (c : ChainId) :
    p.validate c = none ↔ ∃ f, p.tree? c = some f := by
  have h := scan_eq_none_iff (fun b => (p.kindOf b).type) (fun b => (p.kindOf b).id) (p.chain c) 0 0
  refine h.trans ?_
  unfold openers Program.tree?
  rcases parse (fun b => (p.kindOf b).type) (p.chain c) with - | ⟨f, - | ⟨x, pending⟩⟩ <;> simp

end BlockEngine
