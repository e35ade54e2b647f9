/-
  BlockEngine.Proofs.Registry.Procedures — what a procedure is made of.

  A signature of `n` parameters has a label and `n` arguments, and the definition that it embeds in the
  argument at a position is the placeholder of the parameter at that position (`Registry.Signature`).

  Proved:
  - a new procedure has a signature of as many parameters as it has names (`signature_newProcedure`);
  - a copy of a signature is one, and the original stays one (`Registry.Signature.copied`);
  - linking leaves signatures what they are (`Program.signature_link`);
  - no signature has more parameters than there are handles (`Registry.Signature.le_handles`).
-/

import BlockEngine.Proofs.Registry.References
import BlockEngine.Proofs.Run.Linking
import BlockEngine.Registry.Procedure

namespace BlockEngine

/-- Blocks of the kind call a procedure of `n` parameters. -/
structure Definition.IsSignature (d : Definition) (n : Nat) : Prop where
  type : d.type = .normal
  role : d.role = .call
  native : d.native = some callProcedure
  inputs : d.inputs.map (·.type) = .text :: List.replicate n .argument

/-- Blocks of the kind yield the argument bound to the parameter at a position. -/
structure Definition.IsPlaceholder (d : Definition) (i : Nat) : Prop where
  type : d.type = .normal
  role : d.role = .parameter i
  native : d.native = some parameterValue
  inputs : d.inputs.map (·.type) = [.text]

/-- The handle is that of a signature with its placeholders in order. -/
structure Registry.Signature (r : Registry) (h : Handle) (n : Nat) : Prop where
  kind : ∃ d, r.definition? h = some d ∧ d.IsSignature n
  count : (r.params h).length = n
  placeholder : ∀ {i h'}, (r.params h)[i]? = some h' → ∃ d, r.definition? h' = some d ∧ d.IsPlaceholder i

namespace Registry

variable {r s : Registry} {h h' : Handle} {n : Nat}

theorem isZero_of_definition? {d : Definition} (hd : r.definition? h = some d) : h.isZero = false := by
  unfold definition? kind? holding? at hd
  split at hd
  · cases hd
  · simpa using ‹¬ h.isZero = true›

theorem params_eq {d : Definition} (hd : r.definition? h = some d) : r.params h = d.children := by
  rw [params, hd]

theorem Signature.grows (hs : r.Signature h n) (ha : r.Arena) (he : Evolves false false r s) : s.Signature h n := by
  obtain ⟨d, hd, hsig⟩ := hs.kind
  have hd' := definition?_grows ha he hd
  have hparams : s.params h = r.params h := by rw [params_eq hd, params_eq hd']
  refine ⟨⟨d, hd', hsig⟩, by rw [hparams, hs.count], fun hi => ?_⟩
  rw [hparams] at hi
  obtain ⟨e, he', hplace⟩ := hs.placeholder hi
  exact ⟨e, definition?_grows ha he he', hplace⟩

/-- Placeholders of one signature have records of their own. -/
theorem Signature.le_handles (hs : r.Signature h n) : n ≤ 2 ^ 32 := by
  have hparam : ∀ i : Fin n, ∃ h', (r.params h)[i.val]? = some h' := by
    intro i
    exact ⟨_, List.getElem?_eq_getElem (hs.count ▸ i.isLt)⟩
  choose f hf using hparam
  have hinjective : Function.Injective fun i => (⟨(f i).index.toNat, (f i).index.toNat_lt⟩ : Fin (2 ^ 32)) := by
    intro i j hij
    obtain ⟨d, hd, hplace⟩ := hs.placeholder (hf i)
    obtain ⟨e, he, hplace'⟩ := hs.placeholder (hf j)
    obtain ⟨x, hx, rfl⟩ := definition?_eq_some.mp hd
    obtain ⟨y, hy, rfl⟩ := definition?_eq_some.mp he
    -- One record is in use for one thing.
    have hxy : x = y := by
      have hx' := (holding?_eq_some.mp hx).2.2
      rw [Fin.mk.inj_iff.mp hij, (holding?_eq_some.mp hy).2.2] at hx'
      exact (Option.some.inj hx').symm
    rw [hxy] at hplace
    have hrole := hplace.role.symm.trans hplace'.role
    exact Fin.ext (by simpa using hrole)
  simpa using Fintype.card_le_of_injective _ hinjective

/-! ## New procedures -/

/-- Records that have generations of their own leave room. -/
theorem roomy_of_forall {r : Registry} (h : ∀ x ∈ r.records.toList, x.generation ≠ 0)
    (hs : r.records.size ≤ 2 ^ 32) : r.Roomy := by
  refine ⟨fun i => ?_, hs⟩
  unfold generation
  cases hi : r.records[i]? with
  | none => decide
  | some x => exact h x (Array.mem_toList_iff.mpr (Array.mem_of_getElem? hi))

/-- What is put into a registry is found there. -/
theorem definition?_alloc (ha : r.Arena) (d : Definition) (hroom : (r.alloc d).2.Roomy) :
    (r.alloc d).2.definition? (r.alloc d).1 = some d := by
  obtain ⟨i, hp⟩ := ha.placed d
  rw [definition?_eq_some]
  refine ⟨_, hp.addressed hroom, ?_⟩
  rw [kind, hp.kinds]
  simp

/-- Parameters are numbered from `i` on, and each is embedded in an argument of its own. -/
theorem addParameters_placeholders (name : Text) (i : Nat) (ps : List Text) (ha : r.Arena)
    (hroom : (r.addParameters name i ps).2.Roomy) :
    (r.addParameters name i ps).1.map (·.type) = List.replicate ps.length .argument ∧
      ∀ j input, (r.addParameters name i ps).1[j]? = some input →
        ∃ d, (r.addParameters name i ps).2.definition? input.child = some d ∧ d.IsPlaceholder (i + j) := by
  induction ps generalizing i r with
  | nil => exact ⟨rfl, fun j input hj => by cases hj⟩
  | cons p ps ih =>
    rw [addParameters] at hroom ⊢
    dsimp only at hroom ⊢
    generalize hd : ({ id := _, inputs := _, native := _, role := _ } : Definition) = d at hroom ⊢
    have ha' := ha.alloc d
    have hrest := addParameters_evolves name (i + 1) ps (r.alloc d).2
    obtain ⟨htypes, hchildren⟩ := ih (i + 1) ha' hroom
    refine ⟨by rw [List.map_cons, htypes, List.length_cons, List.replicate_succ], fun j input hj => ?_⟩
    cases j with
    | zero =>
      cases hj
      refine ⟨d, definition?_grows ha' hrest (definition?_alloc ha d (hroom.of_evolves ha' hrest)), ?_⟩
      subst hd
      exact ⟨rfl, rfl, rfl, rfl⟩
    | succ j =>
      obtain ⟨e, he, hplace⟩ := hchildren j input hj
      exact ⟨e, he, by rwa [Nat.add_right_comm] at hplace⟩

/-- A new procedure has a signature with a placeholder for each name. -/
theorem signature_newProcedure (name : Text) (ps : List Text) (ha : r.Arena)
    (hroom : (r.newProcedure name ps).2.Roomy) :
    (r.newProcedure name ps).2.Signature (r.newProcedure name ps).1 ps.length := by
  have hgrow := addParameters_evolves name 0 ps r
  have ha' := ha.of_evolves hgrow
  let d : Definition :=
    { id := name
      inputs := { type := .text, text := name } :: (r.addParameters name 0 ps).1
      native := some callProcedure
      role := .call }
  have hlast := alloc_evolves d (r.addParameters name 0 ps).2
  obtain ⟨htypes, hchildren⟩ := addParameters_placeholders name 0 ps ha (hroom.of_evolves ha' hlast)
  have hd : (r.newProcedure name ps).2.definition? (r.newProcedure name ps).1 = some d := definition?_alloc ha' d hroom
  have hparams : (r.newProcedure name ps).2.params (r.newProcedure name ps).1 =
      (r.addParameters name 0 ps).1.map (·.child) := by
    rw [params_eq hd]
    show ((r.addParameters name 0 ps).1.map (·.child)).filter (!·.isZero) = _
    refine List.filter_eq_self.mpr fun c hc => ?_
    obtain ⟨input, hinput, rfl⟩ := List.mem_map.mp hc
    obtain ⟨j, hj⟩ := List.getElem?_of_mem hinput
    obtain ⟨e, he, -⟩ := hchildren j input hj
    rw [isZero_of_definition? he, Bool.not_false]
  refine ⟨⟨d, hd, rfl, rfl, rfl, congrArg (_ :: ·) htypes⟩, ?_, fun {i h'} hi => ?_⟩
  · rw [hparams, List.length_map, ← List.length_map (f := (·.type)), htypes, List.length_replicate]
  · rw [hparams, List.getElem?_map, Option.map_eq_some_iff] at hi
    obtain ⟨input, hinput, rfl⟩ := hi
    obtain ⟨e, he, hplace⟩ := hchildren i input hinput
    exact ⟨e, definition?_grows ha' hlast he, by rwa [Nat.zero_add] at hplace⟩

/-! ## Copies -/

/-- What copies share with their originals: all but who owns them and what they embed. -/
def Copied (r s : Registry) (h h' : Handle) : Prop :=
  ∀ d, r.definition? h = some d → ∃ is, s.definition? h' = some { d with inputs := is, owner := none } ∧
    is.map (·.type) = d.inputs.map (·.type)

theorem Copied.grows {t : Registry} (hc : Copied r s h h') (hs : s.Arena) (he : Evolves false false s t) :
    Copied r t h h' := by
  intro d hd
  obtain ⟨is, hd', htypes⟩ := hc d hd
  exact ⟨is, definition?_grows hs he hd', htypes⟩

theorem Copied.earlier {q : Registry} (hc : Copied r s h h') (hq : q.Arena) (he : Evolves false false q r) :
    Copied q s h h' := fun d hd => hc d (definition?_grows hq he hd)

/-- The children of copied inputs are copies of the children, in order. -/
theorem copyInputs_copied {copy : Copier} {is js : List Input}
    (hevolves : ∀ h r o, copy h r = some o → Evolves false false r o.2)
    (hcopy : ∀ {h h' r s}, r.Arena → copy h r = some (.ok h', s) → s.Roomy →
      (s.definition? h').isSome ∧ Copied r s h h')
    (ha : r.Arena) (ho : copyInputs copy is r = some (.ok js, s)) (hroom : s.Roomy) :
    js.map (·.type) = is.map (·.type) ∧
      List.Forall₂ (Copied r s) ((is.map (·.child)).filter (!·.isZero)) ((js.map (·.child)).filter (!·.isZero)) := by
  induction is generalizing r js with
  | nil =>
    cases ho
    exact ⟨rfl, .nil⟩
  | cons i rest ih =>
    rw [copyInputs] at ho
    split at ho
    · rename_i hz
      split at ho
      · rename_i ks t hks
        cases ho
        obtain ⟨htypes, hchildren⟩ := ih ha hks
        refine ⟨by rw [List.map_cons, List.map_cons, htypes], ?_⟩
        simpa [hz] using hchildren
      · rename_i hno
        exact absurd ho (hno _ _)
    · rename_i hz
      split at ho
      · rename_i c t hc
        split at ho
        · rename_i ks u hks
          cases ho
          have hfirst := hevolves _ _ _ hc
          have hrest := copyInputs_evolves hevolves rest t hks
          have hat := ha.of_evolves hfirst
          obtain ⟨hsome, hcopied⟩ := hcopy ha hc (hroom.of_evolves hat hrest)
          obtain ⟨e, he⟩ := Option.isSome_iff_exists.mp hsome
          obtain ⟨htypes, hchildren⟩ := ih hat hks
          refine ⟨by rw [List.map_cons, List.map_cons, htypes], ?_⟩
          have hcz := isZero_of_definition? he
          simp only [List.map_cons, List.filter_cons, hz, hcz, Bool.not_false, if_true]
          have hlater := hchildren.imp fun _ _ hc => hc.earlier ha hfirst
          exact .cons (hcopied.grows hat hrest) hlater
        · rename_i hno
          exact absurd ho (hno _ _)
      · cases ho
      · cases ho

theorem copyTree_copied (n : Nat) {h h' : Handle} {r s : Registry} (ha : r.Arena)
    (ho : copyTree n h r = some (.ok h', s)) (hroom : s.Roomy) : (s.definition? h').isSome ∧ Copied r s h h' := by
  induction n generalizing h h' r s with
  | zero => cases ho
  | succ n ih =>
    rw [copyTree] at ho
    split at ho
    · cases ho
    · rename_i d hd
      split at ho
      · rename_i js t hjs
        simp only [Option.some.injEq, Prod.mk.injEq, Except.ok.injEq] at ho
        obtain ⟨rfl, rfl⟩ := ho
        have hgrow := copyInputs_evolves (fun _ _ _ => copyTree_evolves n _ _) d.inputs r hjs
        have hat := ha.of_evolves hgrow
        have hlast := alloc_evolves { d with inputs := js, owner := none } t
        obtain ⟨htypes, -⟩ := copyInputs_copied (fun _ _ _ => copyTree_evolves n _ _) ih ha hjs
          (hroom.of_evolves hat hlast)
        have hcopy := definition?_alloc hat _ hroom
        refine ⟨by rw [hcopy]; rfl, fun e he => ?_⟩
        obtain rfl : d = e := Option.some.inj (hd.symm.trans he)
        exact ⟨js, hcopy, htypes⟩
      · cases ho
      · cases ho

/-- A copy of a signature is one of as many parameters. -/
theorem Signature.copied (hs : r.Signature h n) (ha : r.Arena) (ho : r.copyDefinition h = (.ok h', s))
    (hroom : s.Roomy) : s.Signature h' n := by
  obtain ⟨d, hd, hsig⟩ := hs.kind
  have htree : copyTree (r.records.size + 1) h r = some (.ok h', s) := by
    unfold copyDefinition at ho
    cases hc : copyTree (r.records.size + 1) h r with
    | none =>
      rw [hc] at ho
      cases ho
    | some o =>
      rw [hc] at ho
      exact congrArg some ho
  rw [copyTree, hd] at htree
  dsimp only at htree
  split at htree
  · rename_i js t hjs
    simp only [Option.some.injEq, Prod.mk.injEq, Except.ok.injEq] at htree
    obtain ⟨rfl, rfl⟩ := htree
    have hgrow := copyInputs_evolves (fun _ _ _ => copyTree_evolves _ _ _) d.inputs r hjs
    have hat := ha.of_evolves hgrow
    have hlast := alloc_evolves { d with inputs := js, owner := none } t
    obtain ⟨htypes, hchildren⟩ := copyInputs_copied (fun _ _ _ => copyTree_evolves _ _ _) (copyTree_copied _) ha hjs
      (hroom.of_evolves hat hlast)
    have hcopy := definition?_alloc hat _ hroom
    have hparams : List.Forall₂ (Copied r t) (r.params h) ((js.map (·.child)).filter (!·.isZero)) := by
      rw [params_eq hd]
      exact hchildren
    refine ⟨⟨_, hcopy, hsig.type, hsig.role, hsig.native, htypes.trans hsig.inputs⟩, ?_, fun {i c'} hi => ?_⟩
    · rw [params_eq hcopy, ← hs.count]
      exact hparams.length_eq.symm
    · rw [params_eq hcopy] at hi
      obtain ⟨hj, hc'⟩ := List.getElem?_eq_some_iff.mp hi
      have hj' : i < (r.params h).length := hparams.length_eq ▸ hj
      have hcopied : Copied r t (r.params h)[i] c' := hc' ▸ hparams.get hj' hj
      obtain ⟨e, he, hplace⟩ := hs.placeholder (List.getElem?_eq_getElem hj')
      obtain ⟨is, hd', htypes'⟩ := hcopied e he
      refine ⟨_, definition?_grows hat hlast hd', hplace.type, hplace.role, hplace.native, ?_⟩
      exact htypes'.trans hplace.inputs
  · cases htree
  · cases htree

/-! ## Links -/

theorem definition?_unlinked (h : Handle) : r.unlinked.definition? h = (r.definition? h).map Definition.unowned := by
  rw [definition?, definition?, kind?_unlinked, Option.map_map]
  exact congrArg (fun f => (r.kind? h).map f) (funext r.kind_unlinked)

theorem signature_unlinked : r.unlinked.Signature h n ↔ r.Signature h n := by
  constructor
  · intro hs
    obtain ⟨d, hd, hsig⟩ := hs.kind
    rw [definition?_unlinked, Option.map_eq_some_iff] at hd
    obtain ⟨d, hd, rfl⟩ := hd
    refine ⟨⟨d, hd, hsig.type, hsig.role, hsig.native, hsig.inputs⟩, ?_, fun hi => ?_⟩
    · rw [← params_unlinked, hs.count]
    · rw [← params_unlinked] at hi
      obtain ⟨e, he, hplace⟩ := hs.placeholder hi
      rw [definition?_unlinked, Option.map_eq_some_iff] at he
      obtain ⟨e, he, rfl⟩ := he
      exact ⟨e, he, hplace.type, hplace.role, hplace.native, hplace.inputs⟩
  · intro hs
    obtain ⟨d, hd, hsig⟩ := hs.kind
    refine ⟨⟨d.unowned, ?_, hsig.type, hsig.role, hsig.native, hsig.inputs⟩, ?_, fun hi => ?_⟩
    · rw [definition?_unlinked, hd]
      rfl
    · rw [params_unlinked, hs.count]
    · rw [params_unlinked] at hi
      obtain ⟨e, he, hplace⟩ := hs.placeholder hi
      refine ⟨e.unowned, ?_, hplace.type, hplace.role, hplace.native, hplace.inputs⟩
      rw [definition?_unlinked, he]
      rfl

end Registry

/-- Signatures are what they are, whatever they are linked to. -/
theorem Program.signature_link (p : Program) (r q : RegistryId) (cs : List ChainId) {h : Handle} {n : Nat} :
    ((p.link r cs).registry q).Signature h n ↔ (p.registry q).Signature h n := by
  rw [← Registry.signature_unlinked, ← registry_unlinked, unlinked_link, registry_unlinked, Registry.signature_unlinked]

end BlockEngine
