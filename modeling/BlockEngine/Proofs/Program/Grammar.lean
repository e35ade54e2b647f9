/-
  BlockEngine.Proofs.Program.Grammar — the bracket grammar of chains.

  A program of blocks is a sequence of statements. A statement is a plain block, a hat or a group: a control
  block, a program, any number of continuations with a program each, and a terminator (`Derives`).

  Read from the left, the number of open bodies is all that matters of the blocks before (`openAfter`), and
  the check of a chain's nesting is that reading (`scan_eq`). What is open is closed by the rest in the
  grammar's own terms (`Ends`), which takes the reading back to a derivation.

  Proved:
  - `derives_program_iff`: a sequence is a program if nothing in it closes what is not open and nothing is
    open at its end.
  - `exists_derives_append_iff`: it starts a program if nothing in it closes what is not open.
  - `check_reads_grammar`: the check accepts the programs of the grammar, and else reports the first block
    that no program has after the blocks before it, or how many terminators are missing.
-/

import BlockEngine.Program.Chain

namespace BlockEngine

namespace Balance

/-! ## The grammar -/

inductive Symbol where
  | program
  | statement
  /-- The continuations of a group, with their bodies. -/
  | branches
  deriving DecidableEq

inductive Derives : Symbol → List BlockType → Prop
  | done : Derives .program []
  | next {first rest : List BlockType} : Derives .statement first → Derives .program rest →
      Derives .program (first ++ rest)
  | normal : Derives .statement [.normal]
  | hat : Derives .statement [.hat]
  | group {body more : List BlockType} : Derives .program body → Derives .branches more →
      Derives .statement (.control :: (body ++ more ++ [.terminator]))
  | stop : Derives .branches []
  | branch {body more : List BlockType} : Derives .program body → Derives .branches more →
      Derives .branches (.continuation :: (body ++ more))

/-! ## Reading from the left -/

/-- The number of open bodies after a block, if the block closes none that is not open. -/
def open? : Nat → BlockType → Option Nat
  | depth, .control => some (depth + 1)
  | 0, .continuation => none
  | 0, .terminator => none
  | depth + 1, .terminator => some depth
  | depth, _ => some depth

/-- The number of open bodies after some blocks, if none of them closes one that is not open. -/
def openAfter (depth : Nat) (types : List BlockType) : Option Nat := types.foldlM open? depth

variable {depth n : Nat} {types rest : List BlockType}

@[simp] theorem openAfter_nil (depth : Nat) : openAfter depth [] = some depth := rfl

@[simp] theorem openAfter_cons (depth : Nat) (t : BlockType) (types : List BlockType) :
    openAfter depth (t :: types) = (open? depth t).bind (openAfter · types) := rfl

theorem openAfter_append (depth : Nat) (types rest : List BlockType) :
    openAfter depth (types ++ rest) = (openAfter depth types).bind (openAfter · rest) :=
  List.foldlM_append

/-- Only a block that closes a body is refused, and only where none is open. -/
theorem open?_eq_none_iff {t : BlockType} : open? depth t = none ↔ depth = 0 ∧ t.closes = true := by
  cases t <;> cases depth <;> simp [open?, BlockType.closes]

theorem open?_add {t : BlockType} (h : open? depth t = some n) (more : Nat) : open? (depth + more) t = some (n + more) := by
  cases t <;> cases depth <;> simp [open?, Nat.add_right_comm] at h ⊢ <;> omega

/-- Bodies that were open before do not matter to blocks that close none of them. -/
theorem openAfter_add (h : openAfter depth types = some n) (more : Nat) :
    openAfter (depth + more) types = some (n + more) := by
  induction types generalizing depth with
  | nil =>
    cases h
    rfl
  | cons t types ih =>
    rw [openAfter_cons] at h ⊢
    obtain ⟨d, hd, h⟩ := Option.bind_eq_some_iff.mp h
    rw [open?_add hd]
    exact ih h

/-- Each body that was open at first and is not at the end was closed by a terminator of its own. -/
theorem le_add_count (h : openAfter depth types = some n) : depth ≤ n + types.count .terminator := by
  induction types generalizing depth with
  | nil =>
    cases h
    exact Nat.le_refl _
  | cons t types ih =>
    rw [openAfter_cons] at h
    obtain ⟨d, hd, h⟩ := Option.bind_eq_some_iff.mp h
    have hrest := ih h
    cases t <;> cases depth <;> simp [open?] at hd ⊢ <;> omega

theorem openAfter_terminators (n : Nat) : openAfter n (List.replicate n .terminator) = some 0 := by
  induction n with
  | zero => rfl
  | succ n ih => exact ih

/-! ## Reading and derivations -/

/-- What is derived leaves as many bodies open as there were. Branches stand in a body. -/
theorem Derives.openAfter_eq {s : Symbol} (h : Derives s types) (hdepth : s = .branches → 0 < depth) :
    openAfter depth types = some depth := by
  induction h generalizing depth with
  | done => rfl
  | next _ _ ihfirst ihrest => rw [openAfter_append, ihfirst nofun, Option.bind_some, ihrest nofun]
  | normal => cases depth <;> rfl
  | hat => cases depth <;> rfl
  | group _ _ ihbody ihmore =>
    rw [openAfter_cons, open?, Option.bind_some, List.append_assoc, openAfter_append, ihbody nofun, Option.bind_some,
      openAfter_append, ihmore fun _ => Nat.succ_pos _]
    rfl
  | stop => rfl
  | branch _ _ ihbody ihmore =>
    obtain ⟨d, rfl⟩ := Nat.exists_eq_succ_of_ne_zero (Nat.ne_of_gt (hdepth rfl))
    rw [openAfter_cons, open?, Option.bind_some, openAfter_append, ihbody nofun, Option.bind_some,
      ihmore fun _ => Nat.succ_pos _]
    all_goals nofun

/-- Blocks that close some open bodies, one after the other, and none else. -/
inductive Ends : Nat → List BlockType → Prop
  | none {types : List BlockType} : Derives .program types → Ends 0 types
  | body {n : Nat} {body more rest : List BlockType} : Derives .program body → Derives .branches more → Ends n rest →
      Ends (n + 1) (body ++ more ++ .terminator :: rest)

/-- A statement stands before anything that ends bodies. -/
theorem Ends.after {first : List BlockType} (hfirst : Derives .statement first) (h : Ends n types) :
    Ends n (first ++ types) := by
  cases h with
  | none hprogram => exact .none (hfirst.next hprogram)
  | body hbody hmore hrest =>
    rw [← List.append_assoc, ← List.append_assoc]
    exact .body (hfirst.next hbody) hmore hrest

/-- Blocks that leave no body open end all that were. -/
theorem ends_of_openAfter (h : openAfter depth types = some 0) : Ends depth types := by
  induction types generalizing depth with
  | nil =>
    cases h
    exact .none .done
  | cons t types ih =>
    rw [openAfter_cons] at h
    obtain ⟨d, hd, h⟩ := Option.bind_eq_some_iff.mp h
    have hends := ih h
    cases t with
    | normal =>
      cases depth <;> cases hd <;> exact .after .normal hends
    | hat =>
      cases depth <;> cases hd <;> exact .after .hat hends
    | control =>
      cases hd
      -- the group's body is the first that the rest ends
      cases hends with
      | body hbody hmore hrest =>
        have hgroup := hrest.after (.group hbody hmore)
        simpa using hgroup
    | continuation =>
      cases depth with
      | zero => cases hd
      | succ depth =>
        cases hd
        cases hends with
        | body hbody hmore hrest => exact .body .done (.branch hbody hmore) hrest
    | terminator =>
      cases depth with
      | zero => cases hd
      | succ depth =>
        cases hd
        exact .body .done .stop hends

/-- The programs are the sequences that close what they open, and nothing else. -/
theorem derives_program_iff : Derives .program types ↔ openAfter 0 types = some 0 := by
  refine ⟨fun h => h.openAfter_eq nofun, fun h => ?_⟩
  cases ends_of_openAfter h with
  | none hprogram => exact hprogram

/-- A sequence starts a program if it closes only what it opens. -/
theorem exists_derives_append_iff : (∃ rest, Derives .program (types ++ rest)) ↔ (openAfter 0 types).isSome := by
  simp only [derives_program_iff, openAfter_append]
  constructor
  · rintro ⟨rest, h⟩
    obtain ⟨n, hn, -⟩ := Option.bind_eq_some_iff.mp h
    simp [hn]
  · intro h
    obtain ⟨n, hn⟩ := Option.isSome_iff_exists.mp h
    exact ⟨List.replicate n .terminator, by rw [hn, Option.bind_some, openAfter_terminators]⟩

/-- Where no body is open, what starts a program does so no more with a block that closes one. -/
theorem first_stray {before : List BlockType} {t : BlockType} (hbefore : openAfter 0 before = some 0)
    (hcloses : t.closes = true) : (∃ rest, Derives .program (before ++ rest)) ∧
      ∀ rest, ¬ Derives .program (before ++ [t] ++ rest) := by
  refine ⟨exists_derives_append_iff.mpr (by rw [hbefore]; rfl), fun rest h => ?_⟩
  rw [derives_program_iff, openAfter_append, openAfter_append, hbefore, Option.bind_some, openAfter_cons,
    open?_eq_none_iff.mpr ⟨rfl, hcloses⟩] at h
  cases h

/-! ## The check -/

def stray : BlockType → Text → Nat → Error
  | .continuation => .dangling
  | _ => .unmatched

def verdict : Nat → Option Error
  | 0 => none
  | n + 1 => some (.unclosed (n + 1))

/-- A scan reads to the end and reports what is open there, or to the first block that closes what is not. -/
theorem scan_eq (depth i : Nat) (blocks : List (BlockType × Text)) :
    (∃ n, openAfter depth (blocks.map (·.1)) = some n ∧ scan depth i blocks = verdict n) ∨
    ∃ before t id after, blocks = before ++ (t, id) :: after ∧ openAfter depth (before.map (·.1)) = some 0 ∧
      t.closes = true ∧ scan depth i blocks = some (stray t id (i + before.length)) := by
  induction blocks generalizing depth i with
  | nil => exact .inl ⟨depth, rfl, by cases depth <;> rfl⟩
  | cons b blocks ih =>
    obtain ⟨t, id⟩ := b
    cases hd : open? depth t with
    | none =>
      obtain ⟨rfl, hcloses⟩ := open?_eq_none_iff.mp hd
      refine .inr ⟨[], t, id, blocks, rfl, rfl, hcloses, ?_⟩
      cases t with
      | continuation | terminator => rfl
      | _ => cases hcloses
    | some d =>
      have hscan : scan depth i ((t, id) :: blocks) = scan d (i + 1) blocks := by
        cases t <;> cases depth <;> cases hd <;> rfl
      rw [hscan]
      rcases ih d (i + 1) with ⟨n, hn, h⟩ | ⟨before, t', id', after, rfl, hbefore, hcloses, h⟩
      · exact .inl ⟨n, by rw [List.map_cons, openAfter_cons, hd]; exact hn, h⟩
      · refine .inr ⟨(t, id) :: before, t', id', after, rfl, ?_, hcloses, ?_⟩
        · rw [List.map_cons, openAfter_cons, hd]
          exact hbefore
        · rw [h, List.length_cons, Nat.add_right_comm, Nat.add_assoc]

theorem check_eq_none_iff {blocks : List (BlockType × Text)} :
    check blocks = none ↔ openAfter 0 (blocks.map (·.1)) = some 0 := by
  rw [check]
  rcases scan_eq 0 0 blocks with ⟨n, hn, h⟩ | ⟨before, t, id, after, rfl, hbefore, hcloses, h⟩
  · rw [h, hn]
    cases n <;> simp [verdict]
  · rw [h, List.map_append, openAfter_append, hbefore, Option.bind_some, List.map_cons, openAfter_cons,
      open?_eq_none_iff.mpr ⟨rfl, hcloses⟩]
    exact iff_of_false nofun nofun

theorem check_eq_verdict {blocks : List (BlockType × Text)} (h : openAfter 0 (blocks.map (·.1)) = some n) :
    check blocks = verdict n := by
  rcases scan_eq 0 0 blocks with ⟨m, hm, hscan⟩ | ⟨before, t, id, after, rfl, hbefore, hcloses, -⟩
  · cases h.symm.trans hm
    exact hscan
  · rw [List.map_append, openAfter_append, hbefore, Option.bind_some, List.map_cons, openAfter_cons,
      open?_eq_none_iff.mpr ⟨rfl, hcloses⟩] at h
    cases h

theorem openAfter_of_unclosed {blocks : List (BlockType × Text)} (h : check blocks = some (.unclosed n)) :
    openAfter 0 (blocks.map (·.1)) = some n := by
  rw [check] at h
  rcases scan_eq 0 0 blocks with ⟨m, hm, hscan⟩ | ⟨before, t, id, after, -, -, -, hscan⟩
  · rw [hscan] at h
    cases m <;> cases h
    exact hm
  · rw [hscan] at h
    cases t <;> cases h

/-- Nothing is wrong but for bodies that are left open: no block closes what is not open. -/
theorem check_completable_iff {blocks : List (BlockType × Text)} :
    (check blocks = none ∨ ∃ n, check blocks = some (.unclosed n)) ↔ ∃ n, openAfter 0 (blocks.map (·.1)) = some n := by
  constructor
  · rintro (h | ⟨n, h⟩)
    · exact ⟨0, check_eq_none_iff.mp h⟩
    · exact ⟨n, openAfter_of_unclosed h⟩
  · rintro ⟨n, h⟩
    rw [check_eq_verdict h]
    cases n with
    | zero => exact .inl rfl
    | succ n => exact .inr ⟨n + 1, rfl⟩

end Balance

open Balance

namespace Program

def types (p : Program) (c : ChainId) : List BlockType := (p.chain c).map fun b => (p.kindOf b).type

theorem outline_types (p : Program) (c : ChainId) : (p.outline c).map (·.1) = p.types c := by
  simp [outline, types]

end Program

/-- The check of a chain's nesting accepts the programs of the bracket grammar and reports the first defect.
    - A block that closes a body where none is open is reported with its id and its position: some program
      starts with the blocks before it, but none with it, too.
    - Bodies that are open at the end are counted: that many terminators complete the chain to a program, and
      whatever completes it has as many. -/
theorem check_reads_grammar (p : Program) (c : ChainId) :
    (p.validate c = none ↔ Derives .program (p.types c)) ∧
    ∀ e, p.validate c = some e →
      (∃ i t id, (p.outline c)[i]? = some (t, id) ∧
        (t = .continuation ∧ e = .dangling id i ∨ t = .terminator ∧ e = .unmatched id i) ∧
        (∃ rest, Derives .program ((p.types c).take i ++ rest)) ∧
        ∀ rest, ¬ Derives .program ((p.types c).take (i + 1) ++ rest)) ∨
      ∃ d, 0 < d ∧ e = .unclosed d ∧ Derives .program (p.types c ++ List.replicate d .terminator) ∧
        ∀ rest, Derives .program (p.types c ++ rest) → d ≤ rest.count .terminator := by
  rcases scan_eq 0 0 (p.outline c) with ⟨n, hn, hscan⟩ | ⟨before, t, id, after, hblocks, hbefore, hcloses, hscan⟩
  · rw [p.outline_types] at hn
    have hvalidate : p.validate c = verdict n := hscan
    rw [hvalidate, derives_program_iff, hn]
    cases n with
    | zero => exact ⟨by simp [verdict], nofun⟩
    | succ n =>
      refine ⟨by simp [verdict], fun e he => .inr ⟨n + 1, Nat.succ_pos n, (Option.some.inj he).symm, ?_, fun rest h => ?_⟩⟩
      · rw [derives_program_iff, openAfter_append, hn, Option.bind_some, openAfter_terminators]
      · rw [derives_program_iff, openAfter_append, hn, Option.bind_some] at h
        simpa using le_add_count h
  · have hvalidate : p.validate c = some (stray t id before.length) := by
      rw [Nat.zero_add] at hscan
      exact hscan
    have htypes : p.types c = before.map (·.1) ++ [t] ++ after.map (·.1) := by
      rw [← p.outline_types, hblocks]
      simp
    have htake : (p.types c).take before.length = before.map (·.1) := by
      rw [htypes, List.append_assoc, List.take_left' (List.length_map _)]
    have htake' : (p.types c).take (before.length + 1) = before.map (·.1) ++ [t] := by
      rw [htypes, List.take_left' (by simp)]
    obtain ⟨hstarts, hstray⟩ := first_stray hbefore hcloses
    rw [hvalidate]
    refine ⟨⟨nofun, fun h => (hstray _ (htypes ▸ h)).elim⟩, fun e he => .inl ⟨before.length, t, id, ?_, ?_, ?_, ?_⟩⟩
    · rw [hblocks, List.getElem?_append_right (Nat.le_refl _), Nat.sub_self, List.getElem?_cons_zero]
    · obtain rfl := Option.some.inj he
      cases t with
      | continuation => exact .inl ⟨rfl, rfl⟩
      | terminator => exact .inr ⟨rfl, rfl⟩
      | _ => cases hcloses
    · rw [htake]
      exact hstarts
    · rw [htake']
      exact hstray

end BlockEngine
