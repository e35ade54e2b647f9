/-
  BlockEngine.Proofs.Library.Handover — values that are handed over as copies.

  A declared variable, the result of an invocation and the arguments of a call hold copies, and what is read of
  them is copied again. Meanwhile the operands that a block was given are freed, and when an invocation ends, so
  are its variables and what the control stack holds. Where all that the stacks hold is stored in cells that were
  handed out, as runs of standard programs leave it, nothing of a copy is lost that way.

  Proved:
  - `callNative_declare`, `callNative_get`: what a declaration leaves in a variable, and what is read of one.
  - `callNative_return`, `endCall_owes`: what a return block leaves, and what an invocation comes to.
  - `callNative_parameterValue`: what a placeholder reads of the arguments.
  - `copies_are_transparent`: no copy, no variable, result or argument can be told from what was handed over.
-/

import BlockEngine.Proofs.Library.Honest
import BlockEngine.Proofs.Run.Rooted

namespace BlockEngine

open Library
open Storage
open Value (StoredIn Indistinct)

namespace Machine

/-- The innermost variable of a name holds, in full, what has the contents of a value. -/
def Remembers (m : Machine) (name : Text) (v : Value) : Prop :=
  ∃ x n, m.exec.bindings.find? (·.name == name) = some x ∧ m.storage.Intact n x.value ∧ x.value.contents = v.contents

/-- The innermost invocation has, in full, a result with the contents of a value. It is stored after all that the
    variables and the control stack hold. -/
def Owes (m : Machine) (v : Value) : Prop :=
  ∃ f fs r n, m.exec.calls = f :: fs ∧ f.result = some r ∧ m.storage.Intact n r ∧ r.contents = v.contents ∧
    ∀ u ∈ m.exec.bindings.map (·.value) ++ m.exec.control.map (·.value), u.Everywhere (StoredIn (· < n))

/-- The innermost invocation has, in full, arguments with the contents of some values. -/
def Supplied (m : Machine) (vs : List Value) : Prop :=
  ∃ f fs n, m.exec.calls = f :: fs ∧
    List.Forall₂ (fun v c => c.contents = v.contents ∧ m.storage.Intact n c) vs f.args

end Machine

namespace Work

/-! ## Natives that are called on their operands -/

section

variable {invoke : Invoker} {native : Native} {e : EvalState} {mark : Marker} {vs os : List Value} {m : Machine}

def entering (e : EvalState) (mark : Marker) (args : List Value) (m : Machine) : Machine :=
  { m with exec.eval := some e, journal := ⟨e.block, e.index, mark, args⟩ :: m.journal }

def dropping (outer : Option EvalState) (vs os : List Value) (k : Machine) : Machine :=
  { k with exec.eval := outer, exec.operands := os, storage := k.storage.releaseAll vs }

/-- A native that leaves the operand stack alone is called on the operands above some others, which go. -/
theorem callNative_done (hm : m.exec.operands = vs ++ os) {v : Value} {e' : EvalState} {k : Machine}
    (h : perform invoke (native (vs.map m.storage.view).reverse)
      (entering e mark (vs.map m.storage.view).reverse m) = .done v k)
    (hk : k.exec.operands = m.exec.operands) (he : k.exec.eval = some e') :
    callNative invoke native e mark os.length m = .done (v, e') (dropping m.exec.eval vs os k) := by
  let l : Machine := { k with exec.eval := m.exec.eval }
  have hl : truncateOperands os.length l = _ := truncateOperands_append (m := l) (hk.trans hm)
  unfold callNative
  rw [bind_apply, window_append hm]
  show (perform invoke (native (vs.map m.storage.view).reverse) >>= _)
    (entering e mark (vs.map m.storage.view).reverse m) = _
  rw [bind_apply, h]
  show (truncateOperands os.length >>= fun _ => Pure.pure (v, k.exec.eval.getD e)) l = _
  rw [he, bind_apply, hl]
  rfl

end

end Work

/-! ## Grounded machines -/

open Work

namespace Machine

section

variable {m k : Machine} {v : Value}

theorem Grounded.copied (hm : m.Grounded) (hs : k.storage = (m.storage.copy v).2) (hkept : k.host.kept = m.host.kept)
    (hk : ∀ u ∈ k.exec.held, u ∈ m.exec.held ∨ u = (m.storage.copy v).1) : k.Grounded := by
  refine hm.extended (hs ▸ m.storage.extends_copy v) hkept fun u hu => ?_
  rcases hk u hu with hold | rfl
  · exact .inl hold
  · rw [hs]
    exact .inr (m.storage.storedBelow_copy v)

theorem Grounded.operands_stored (hm : m.Grounded) {vs os : List Value} (hoperands : m.exec.operands = vs ++ os) :
    ∀ u ∈ vs, u.StoredBelow m.storage.next := by
  intro u hu
  refine hm.held u ?_
  simp [Exec.held, hoperands, hu]

theorem Grounded.pushed (hm : m.Grounded) (hv : v.StoredBelow m.storage.next) :
    Grounded { m with exec.operands := v :: m.exec.operands } := by
  refine hm.same rfl rfl fun u hu => ?_
  have hheld : u = v ∨ u ∈ m.exec.held := by
    simp only [Exec.held, List.mem_append, List.mem_cons] at hu ⊢
    tauto
  rcases hheld with rfl | hold
  · exact .inr hv
  · exact .inl hold

/-- The operands that a native was called on are freed. -/
theorem Grounded.dropping (hk : k.Grounded) {vs os : List Value} (hoperands : k.exec.operands = vs ++ os)
    (outer : Option EvalState) : (dropping outer vs os k).Grounded := by
  refine hk.freed (frees_releaseAll (hk.operands_stored hoperands) k.storage) rfl fun u hu => .inl ?_
  simp only [Exec.held, Work.dropping, hoperands, List.mem_append] at hu ⊢
  tauto

end

end Machine

namespace Work

/-- Work comes to what cannot be told from a value, in the machine that it leaves. -/
def Reveals (w : Work (Value × EvalState)) (m : Machine) (v : Value) : Prop :=
  ∃ x e k, w m = .done (x, e) k ∧ (k.storage.view x).Indistinct v

section

variable {invoke : Invoker} {e : EvalState} {mark : Marker} {os : List Value} {m : Machine}

/-! ## Variables -/

theorem pushVariable_of_lt (x : Variable) (h : m.exec.bindings.length < m.exec.limits.bindings) :
    pushVariable x m = .done () { m with exec.bindings := x :: m.exec.bindings } := if_pos h

/-- A declaration leaves in the variable what it was given. -/
theorem callNative_declare {n v : Value} (hm : m.Grounded) (hoperands : m.exec.operands = [v, n] ++ os)
    (hroom : m.exec.bindings.length < m.exec.limits.bindings) :
    ∃ k, callNative invoke declareBlock e mark os.length m = .done (.nothing, e) k ∧ k.Grounded ∧
      k.exec.operands = os ∧ k.Remembers (m.storage.view n).toText (m.storage.view v) := by
  let args := [m.storage.view n, m.storage.view v]
  let x : Variable :=
    { name := (m.storage.view n).toText
      value := (m.storage.copy (m.storage.view v)).1
      depth := m.exec.calls.length
      layer := m.exec.layer }
  let c : Machine := { entering e mark args m with storage := (m.storage.copy (m.storage.view v)).2 }
  let l : Machine := { c with exec.bindings := x :: c.exec.bindings }
  have hperform : perform invoke (declareBlock args) (entering e mark args m) = .done .nothing l := by
    have hpush : pushVariable x c = .done () l := pushVariable_of_lt x hroom
    show (pushVariable x >>= fun _ => Pure.pure Value.nothing) c = _
    rw [bind_apply, hpush]
    rfl
  have hl : l.Grounded := by
    refine hm.copied rfl rfl fun u hu => ?_
    simp only [Exec.held, l, c, x, entering, List.mem_append, List.map_cons, List.mem_cons] at hu ⊢
    tauto
  have hintact : l.storage.Intact m.storage.next x.value := intact_copy _ hm.sound
  have hcontents : x.value.contents = (m.storage.view v).contents := by
    rw [contents_copy, view_view]
  have hloperands : l.exec.operands = [v, n] ++ os := hoperands
  refine ⟨_, callNative_done hoperands hperform rfl rfl, hl.dropping hloperands _, rfl, x, m.storage.next, ?_, ?_,
    hcontents⟩
  · simp [dropping, l, x]
  · exact (frees_releaseAll (hm.operands_stored hoperands) _).intact hintact

/-- Natives that come to a copy of a value: it outlives the operands. -/
theorem yields_copy {native : Native} {vs : List Value} {v : Value} (hm : m.Grounded)
    (hoperands : m.exec.operands = vs ++ os)
    (h : perform invoke (native (vs.map m.storage.view).reverse) (entering e mark (vs.map m.storage.view).reverse m) =
      onStorage (·.copy v) (entering e mark (vs.map m.storage.view).reverse m)) :
    Reveals (callNative invoke native e mark os.length) m (m.storage.view v) := by
  have hintact := (frees_releaseAll (hm.operands_stored hoperands) (m.storage.copy v).2).intact (intact_copy v hm.sound)
  refine ⟨(m.storage.copy v).1, e, _, callNative_done hoperands h rfl rfl, ?_⟩
  have hview : _ = (m.storage.copy v).1 := hintact.view_eq
  refine .of_contents ?_
  rw [← m.storage.contents_copy v]
  exact congrArg Value.contents hview

theorem Reveals.congr {w : Work (Value × EvalState)} {v v' : Value} (h : Reveals w m v) (hv : v.contents = v'.contents) :
    Reveals w m v' := by
  obtain ⟨x, e, k, hw, hx⟩ := h
  exact ⟨x, e, k, hw, .of_contents (hx.contents.trans hv)⟩

/-- Reading a variable makes a copy of what it holds. -/
theorem fetch_apply {name : Text} {x : Variable} (hfind : m.exec.bindings.find? (·.name == name) = some x) :
    fetch name m = (onStorage (·.copy x.value) >>= fun v => Pure.pure (some v)) m := by
  unfold fetch
  rw [bind_apply]
  show Outcome.bind (.done (m.exec.bindings.find? (·.name == name)) m) _ = _
  rw [hfind]
  rfl

/-- What is read of a variable cannot be told from what was put there. -/
theorem callNative_get {n v : Value} (hm : m.Grounded) (hoperands : m.exec.operands = [n] ++ os)
    (hx : m.Remembers (m.storage.view n).toText v) : Reveals (callNative invoke getBlock e mark os.length) m v := by
  obtain ⟨x, lo, hfind, hintact, hcontents⟩ := hx
  have hread : Reveals (callNative invoke getBlock e mark os.length) m (m.storage.view x.value) := by
    refine yields_copy hm hoperands ?_
    have hfetch : fetch (m.storage.view n).toText (entering e mark [m.storage.view n] m) = _ := fetch_apply hfind
    show (fetch (m.storage.view n).toText >>= _) (entering e mark [m.storage.view n] m) = _
    refine (bind_apply _ _ _).trans ?_
    rw [hfetch]
    rfl
  rw [hintact.view_eq] at hread
  exact hread.congr hcontents

/-! ## Results -/

/-- The innermost invocation is to end with a value. What it was to end with before is freed. -/
theorem finish_apply {v : Value} {f : CallFrame} {fs : List CallFrame} (hcalls : m.exec.calls = f :: fs) :
    finish v m = .done () { m with
      exec.calls := { f with result := some v } :: fs
      storage := m.storage.release (f.result.getD .nothing) } := by
  unfold finish modify
  dsimp only
  rw [hcalls]

/-- A return block leaves in the innermost invocation what it was given. -/
theorem callNative_return {v : Value} {f : CallFrame} {fs : List CallFrame} (hm : m.Grounded)
    (hoperands : m.exec.operands = [v] ++ os) (hcalls : m.exec.calls = f :: fs) :
    ∃ k, callNative invoke returnBlock e mark os.length m = .done (.nothing, e) k ∧ k.Grounded ∧
      k.exec.operands = os ∧ k.Owes (m.storage.view v) := by
  let r := (m.storage.copy (m.storage.view v)).1
  let old := f.result.getD .nothing
  let c : Machine := { entering e mark [m.storage.view v] m with storage := (m.storage.copy (m.storage.view v)).2 }
  let l : Machine := { c with exec.calls := { f with result := some r } :: fs, storage := c.storage.release old }
  have hperform : perform invoke (returnBlock [m.storage.view v]) (entering e mark [m.storage.view v] m) =
      .done .nothing l := by
    have hfinish : finish r c = .done () l := finish_apply hcalls
    show (finish r >>= fun _ => Pure.pure Value.nothing) c = _
    rw [bind_apply, hfinish]
    rfl
  have hold : old.StoredBelow m.storage.next := by
    cases hresult : f.result with
    | none => simp [old, hresult, Value.nothing, Value.everywhere_scalar, StoredIn]
    | some u =>
      refine hm.held old ?_
      simp [old, hresult, Exec.held, hcalls]
  have hheld : ∀ u ∈ l.exec.held, u ∈ m.exec.held ∨ u = r := by
    intro u hu
    simp only [Exec.held, l, c, entering, hcalls, List.filterMap_cons, List.mem_append, List.mem_cons] at hu ⊢
    cases f.result with
    | none =>
      dsimp only
      tauto
    | some x =>
      rw [List.mem_cons]
      tauto
  have hfrees := frees_release hold c.storage
  have hc : Machine.Grounded { l with storage := c.storage } := hm.copied rfl rfl hheld
  have hl : l.Grounded :=
    hc.freed (frees_release (hold.mono (m.storage.extends_copy _).next) c.storage) rfl fun _ => .inl
  have hintact : l.storage.Intact m.storage.next r := hfrees.intact (intact_copy _ hm.sound)
  have hcontents : r.contents = (m.storage.view v).contents := by
    rw [contents_copy, view_view]
  have hloperands : l.exec.operands = [v] ++ os := hoperands
  refine ⟨_, callNative_done hoperands hperform rfl rfl, hl.dropping hloperands _, rfl, { f with result := some r }, fs,
    r, m.storage.next, rfl, rfl, ?_, hcontents, fun u hu => ?_⟩
  · exact (frees_releaseAll (hm.operands_stored hoperands) _).intact hintact
  · refine hm.held u ?_
    simp only [dropping, l, c, entering, List.mem_append] at hu
    simp only [Exec.held, List.mem_append]
    tauto

/-- An invocation comes to what cannot be told from what was returned. -/
theorem endCall_owes {v : Value} (hm : m.Owes v) (base : Nat) :
    ∃ w k, endCall m.exec.calls.length base m = .done w k ∧ (k.storage.view w).Indistinct v := by
  obtain ⟨f, fs, r, n, hcalls, hresult, hintact, hcontents, hapart⟩ := hm
  have hend := endCall_apply hcalls base
  rw [hresult] at hend
  refine ⟨r, ended base m, hend, .of_contents ?_⟩
  have hbindings : ∀ u ∈ (m.exec.bindings.takeWhile fun v => !Exec.outlives m.exec.calls.length 0 v).map (·.value),
      u.Everywhere (StoredIn (· < n)) := by
    intro u hu
    obtain ⟨x, hx, rfl⟩ := List.mem_map.mp hu
    exact hapart _ (List.mem_append_left _ (List.mem_map_of_mem ((List.takeWhile_sublist _).subset hx)))
  have hcontrol : ∀ u ∈ (m.exec.control.take (m.exec.control.length - base)).map (·.value),
      u.Everywhere (StoredIn (· < n)) := by
    intro u hu
    obtain ⟨x, hx, rfl⟩ := List.mem_map.mp hu
    exact hapart _ (List.mem_append_right _ (List.mem_map_of_mem (List.mem_of_mem_take hx)))
  have hfrees := (frees_releaseAll hbindings m.storage).trans (frees_releaseAll hcontrol _)
  have hleft : (ended base m).storage.Intact n r := hfrees.intact hintact
  rw [hleft.view_eq, hcontents]

/-! ## Arguments -/

/-- Reading an argument makes a copy of it. -/
theorem argument_apply {v : Value} {f : CallFrame} {fs : List CallFrame} {j : Nat} (hcalls : m.exec.calls = f :: fs)
    (hj : f.args[j]? = some v) : argument j m = onStorage (·.copy v) m := by
  have hat : (if (0 : Int) ≤ (j : Int) then f.args[(j : Int).toNat]? else none) = some v := by
    rw [if_pos (Int.natCast_nonneg j), Int.toNat_natCast, hj]
  simp only [argument, bind_apply, read, Outcome.bind, hcalls, hat]

/-- What a placeholder reads of the arguments cannot be told from what was supplied. -/
theorem callNative_parameterValue {i v : Value} {vs : List Value} {j : Nat} (hm : m.Grounded)
    (hoperands : m.exec.operands = [i] ++ os) (hi : (m.storage.view i).toInt64.toInt = j) (hsupplied : m.Supplied vs)
    (hv : vs[j]? = some v) : Reveals (callNative invoke parameterValue e mark os.length) m v := by
  obtain ⟨f, fs, n, hcalls, hargs⟩ := hsupplied
  obtain ⟨hj, rfl⟩ := List.getElem?_eq_some_iff.mp hv
  have hlen : j < f.args.length := hargs.length_eq ▸ hj
  obtain ⟨hcontents, hintact⟩ := hargs.get hj hlen
  simp only [List.get_eq_getElem] at hcontents hintact
  have hread : Reveals (callNative invoke parameterValue e mark os.length) m (m.storage.view f.args[j]) := by
    refine yields_copy hm hoperands ?_
    have hperform : perform invoke (parameterValue [m.storage.view i]) = argument (m.storage.view i).toInt64.toInt :=
      bind_pure (argument (m.storage.view i).toInt64.toInt)
    show perform invoke (parameterValue [m.storage.view i]) (entering e mark [m.storage.view i] m) = _
    rw [hperform, hi]
    exact argument_apply hcalls (List.getElem?_eq_getElem hlen)
  rw [hintact.view_eq] at hread
  exact hread.congr hcontents

/-- A call supplies its chain with what its operands are. -/
theorem supplied_calling (hm : m.Grounded) (operands vs : List Value) (fs : List CallFrame) :
    let args := (vs.map m.storage.view).reverse
    Machine.Supplied { calling e mark operands args m with exec.calls := { args := (m.storage.copyAll args).1 } :: fs }
      args := by
  intro args
  have hviews : args.map m.storage.view = args := by
    simp [args, Function.comp_def, view_view]
  refine ⟨_, fs, m.storage.next, rfl, ?_⟩
  rw [← hviews, List.forall₂_map_left_iff, hviews]
  exact copyAll_forall₂ args hm.sound (.refl _)

end

end Work

/-! ## Transparency -/

/-- A copy is what its original is made of as it is now, with the tags of a copy, and nothing can be told from
    it; nor from a variable, a result or an argument, which hold copies and are read by copying. The machine that
    this takes is what a run of a standard program shows, however it waits, from its start on. -/
theorem copies_are_transparent :
    (∀ (s : Storage) (v : Value),
      let c := (s.copy v).1
      let s' := (s.copy v).2
      c.unplaced = (s.view v).contents ∧ c.Everywhere Value.Tagged ∧ c.Indistinct (s.view v) ∧ s'.view v = s.view v ∧
        (s.Sound → s'.view c = c ∧ (s'.copy c).1.unplaced = c.unplaced)) ∧
    (∀ (s : Storage) (v w : Value),
      (s.copy v).1.equal ((s.copy v).2.copy w).1 = (s.view v).equal (s.view w)) ∧
    (∀ (m : Machine) (invoke : Invoker) (e : EvalState) (mark : Marker) (os : List Value), m.Grounded →
      (∀ n v, m.exec.operands = [v, n] ++ os → m.exec.bindings.length < m.exec.limits.bindings →
        ∃ k, callNative invoke declareBlock e mark os.length m = .done (.nothing, e) k ∧ k.Grounded ∧
          k.exec.operands = os ∧ k.Remembers (m.storage.view n).toText (m.storage.view v)) ∧
      (∀ n v, m.exec.operands = [n] ++ os → m.Remembers (m.storage.view n).toText v →
        Reveals (callNative invoke getBlock e mark os.length) m v) ∧
      (∀ v, m.exec.operands = [v] ++ os → m.exec.calls ≠ [] →
        ∃ k, callNative invoke returnBlock e mark os.length m = .done (.nothing, e) k ∧ k.Grounded ∧
          k.exec.operands = os ∧ k.Owes (m.storage.view v)) ∧
      (∀ c vs, m.exec.operands = vs ++ .ofChain (some c) :: os →
        let args := (vs.map m.storage.view).reverse
        let bound := (m.storage.copyAll args).1
        let k := calling e mark (.ofChain (some c) :: args) args m
        callNative invoke callProcedure e mark os.length m =
            (invoke c bound >>= afterCall bound e m.exec.eval os.length) k ∧
          Machine.Supplied { k with exec.calls := { args := bound } :: k.exec.calls } args) ∧
      (∀ i j v vs, m.exec.operands = [i] ++ os → (m.storage.view i).toInt64.toInt = (j : Nat) → m.Supplied vs →
        vs[j]? = some v → Reveals (callNative invoke parameterValue e mark os.length) m v)) ∧
    (∀ (m : Machine) (v : Value) (base : Nat), m.Owes v →
      ∃ w k, endCall m.exec.calls.length base m = .done w k ∧ (k.storage.view w).Indistinct v) ∧
    (∀ (p : Program) (limits : Limits), (∀ b, (p.kindOf b).native = none ∨ (p.kindOf b).IsStandard) →
      Machine.Rooted { program := p, exec := { limits } }) ∧
    (∀ (m : Machine) (wait : Machine → Bool) (fuel : Nat), m.Rooted →
      (∀ d b index mark bare prior, (∀ v ∈ prior, v.StoredBelow m.storage.next) →
        (pushOperands (evaluatePaced wait fuel) d b index mark bare prior m).Grounds m.storage.next
          fun _ _ => True) ∧
      (∀ c args, (invokePaced wait fuel c args m).Grounds m.storage.next ResultBelow) ∧
      (∀ r cs cause, (worker (invokePaced wait fuel) r cs cause m).Grounds m.storage.next
        fun n e => ∀ v ∈ e.results, v.StoredBelow n)) := by
  refine ⟨fun s v => ?_, fun s v w => ?_, fun m invoke e mark os hm => ⟨?_, ?_, ?_, ?_, ?_⟩, fun m v base hm => ?_,
    fun p limits hp => ⟨Machine.grounded_idle p limits, Program.honest_of_standard hp⟩,
    fun m wait fuel hm => ⟨?_, ?_, ?_⟩⟩
  · have hcopy := s.unplaced_copy v
    refine ⟨hcopy, Value.tagged_of_unplaced hcopy, .of_contents (s.contents_copy v), (s.extends_copy v).view v,
      fun hs => ?_⟩
    have hview := (intact_copy v hs).view_eq
    refine ⟨hview, ?_⟩
    rw [unplaced_copy, hview, contents_copy, hcopy]
  · refine Value.equal_congr (s.contents_copy v) ?_
    rw [contents_copy, (s.extends_copy v).view w]
  · exact fun n v hoperands hroom => callNative_declare hm hoperands hroom
  · exact fun n v hoperands hx => callNative_get hm hoperands hx
  · intro v hoperands hcalls
    obtain ⟨f, fs, hf⟩ := List.exists_cons_of_ne_nil hcalls
    exact callNative_return hm hoperands hf
  · exact fun c vs hoperands => ⟨callNative_call e mark hoperands, supplied_calling hm _ vs _⟩
  · exact fun i j v vs hoperands hi hsupplied hv => callNative_parameterValue hm hoperands hi hsupplied hv
  · exact endCall_owes hm base
  · exact fun d b index mark bare prior hprior =>
      pushOperands_sober (paced_grounds wait fuel).1 d b index mark bare hprior m hm (Nat.le_refl _)
  · exact fun c args => (paced_grounds wait fuel).2.1 _ c args m hm (Nat.le_refl _)
  · exact fun r cs cause => worker_grounds wait fuel r cs cause hm

def mixed : Value :=
  .list .unmanaged 0 [.scalar .managed (.int 7), .list .static 1 [.ofText "gone", .scalar .unmanaged (.bool true)]]

def declaring : Machine :=
  { exec := { limits := .standard, operands := [mixed, .ofText "x"], calls := [{ args := [] }] }
    storage := { next := 2, emptied := [(1, 0)] } }

theorem declaring_grounded : declaring.Grounded := by
  refine ⟨fun c i h => ?_, fun v hv => ?_, nofun⟩
  · obtain ⟨rfl, -⟩ : c = 1 ∧ i = 0 := by simpa [declaring, isEmptied] using h
    decide
  · have hv : v = mixed ∨ v = .ofText "x" := by simpa [declaring, Exec.held] using hv
    rcases hv with rfl | rfl
    · simp [mixed, declaring, Value.everywhere_list, Value.everywhere_scalar, StoredIn, Value.ofText]
    · simp [Value.ofText, Value.everywhere_scalar, StoredIn]

theorem copies_are_transparent_mixed :
    let e : EvalState := { block := 0, index := 0, canSkip := false }
    ∃ k, callNative (fun _ _ => starve) declareBlock e .opening 0 declaring = .done (.nothing, e) k ∧
      Reveals (callNative (fun _ _ => starve) getBlock e .opening 0)
        { k with exec.operands := .ofText "x" :: k.exec.operands }
        (.list .unmanaged 0 [.scalar .managed (.int 7), .list .static 1 [.nothing, .scalar .unmanaged (.bool true)]]) := by
  intro e
  obtain ⟨-, -, hmachine, -⟩ := copies_are_transparent
  obtain ⟨hdeclare, -⟩ := hmachine declaring (fun _ _ => starve) e .opening [] declaring_grounded
  obtain ⟨k, hk, hgrounded, hoperands, hx⟩ := hdeclare (.ofText "x") mixed rfl (by decide)
  have hname : (Value.ofText "x").Everywhere (StoredIn (· < k.storage.next)) := by
    simp [Value.ofText, Value.everywhere_scalar, StoredIn]
  obtain ⟨-, hget, -⟩ := hmachine _ (fun _ _ => starve) e .opening [] (hgrounded.pushed hname)
  refine ⟨k, hk, hget (.ofText "x") _ ?_ ?_⟩
  · rw [hoperands]
    rfl
  · exact hx

end BlockEngine
