/-
  BlockEngine.Proofs.Library.Procedures — what procedures are given, and what they return.

  A placeholder is pushed its position, which its native asks for among the arguments of the innermost
  invocation. That an invocation keeps its arguments is `invokeSeen_tells`; that the placeholder at a position
  has that position is what makes it one (`Definition.IsPlaceholder`).

  Proved:
  - a placeholder stands for the argument at its position, on every machine with room for an operand
    (`standsFor_placeholder`), and so at each point of an invocation that a call makes (`placeholder_of_path`);
  - the invocation comes to a copy of what its last return block was given (`returned_of_invoke`);
  - from the making of a procedure to the end of a call of it, arguments are bound by position
    (`procedures_bind_by_position`).
-/

import BlockEngine.Proofs.Library.Arguments
import BlockEngine.Proofs.Library.Binding
import BlockEngine.Proofs.Registry.Procedures

namespace BlockEngine

def Program.IsOf (p : Program) (b : BlockId) (r : RegistryId) (h : Handle) : Prop :=
  ∃ x, p.Placed b x ∧ x.registry = r ∧ (p.registry r).kind? h = some x.kind

theorem Program.IsOf.definition_eq {p : Program} {b : BlockId} {r : RegistryId} {h : Handle} (hb : p.IsOf b r h) :
    (p.registry r).definition? h = some (p.kindOf b) := by
  obtain ⟨x, hx, rfl, hk⟩ := hb
  rw [Registry.definition?, hk, kindOf, hx.block]
  rfl

namespace Work

/-! ## Placeholders -/

/-- Evaluated on the machine a block comes to the value, if there is room for an operand. -/
def StandsFor (q : BlockId) (v : Value) (m : Machine) : Prop :=
  ∀ (n : Nat) (index : Int),
    (m.exec.operands.length < m.exec.limits.operands →
      ∃ asked k, evaluate (n + 1) q index .opening false none m = .done (.ok (v, asked)) k) ∧
    (m.exec.limits.operands ≤ m.exec.operands.length →
      evaluate (n + 1) q index .opening false none m = .fault (stackFault .operand .push m.exec.limits.operands) m)

/-- What is asked for at a position is a copy of the argument bound there. -/
theorem argument_bound {m : Machine} {f : CallFrame} {fs : List CallFrame} (hc : m.exec.calls = f :: fs) {i : Nat}
    {v : Value} (hv : f.args[i]? = some v) (hs : v.IsScalar) : argument i m = .done v.retagged m := by
  simp only [argument, bind_apply, read, Outcome.bind, hc, Int.natCast_nonneg, if_true, Int.toNat_natCast, hv,
    onStorage, Storage.copy_of_scalar hs]

/-- A placeholder has no arguments of its own. -/
theorem slots_placeholder {p : Program} {q : BlockId} {x : Block} (hx : p.Placed q x) {i : Nat}
    (hd : (p.kindOf q).IsPlaceholder i) : x.slots = [] := by
  have hinputs : (p.kindOf q).inputs.filter (·.type.hasSlot) = [] := by
    rw [List.filter_eq_nil_iff]
    intro input hinput
    have htype : input.type ∈ [InputType.text] := hd.inputs ▸ List.mem_map_of_mem hinput
    rw [List.mem_singleton.mp htype]
    decide
  have hslots := hx.slots
  rw [hinputs] at hslots
  exact List.map_eq_nil_iff.mp hslots

section

variable {q : BlockId} {m : Machine} {x : Block} (hx : m.program.Placed q x) {i : Nat}
  (hd : (m.program.kindOf q).IsPlaceholder i)
include hx hd

/-- The only operand of a placeholder is its position. -/
theorem pushOperands_placeholder (eval : Evaluator) (index : Int) :
    pushOperands eval (m.program.kindOf q) q index .opening false none m =
      (pushOperand (.ofInt (Int64.ofNat i)) >>= fun _ => (pure (.ok ()) : Work (Except Error Unit))) m := by
  have hhidden : hidden (m.program.kindOf q) .opening none = [.ofInt (Int64.ofNat i)] := by
    unfold hidden
    rw [hd.role, hd.type]
    rfl
  rw [pushOperands_eq (by rw [hd.role]; exact fun h => nomatch h.1), hhidden]
  show ((pushOperand _ >>= fun _ => pure ()) >>= fun _ =>
    pushDeclared eval (m.program.kindOf q) q index .opening false) m = _
  rw [Work.bind_assoc, bind_apply, bind_apply]
  unfold pushOperand
  split
  · let m₁ : Machine := { m with exec.operands := .ofInt (Int64.ofNat i) :: m.exec.operands }
    have hnone : pushDeclared eval (m.program.kindOf q) q index .opening false m₁ = .done (.ok ()) m₁ :=
      pushDeclared_none (m := m₁) hx.block (.inr (slots_placeholder hx hd)) eval _ index
    exact hnone
  · rfl

/-- A placeholder stands for a copy of the argument at its position in the innermost invocation. -/
theorem standsFor_placeholder (hi : i < 2 ^ 63) {f : CallFrame} {fs : List CallFrame} (hc : m.exec.calls = f :: fs)
    {v : Value} (hv : f.args[i]? = some v) (hs : v.IsScalar) : StandsFor q v.retagged m := by
  intro n index
  rw [evaluate, evaluateWith_native hd.native, bind_apply, pushOperands_placeholder hx hd]
  refine ⟨fun hroom => ?_, fun hfull => ?_⟩
  · rw [bind_apply, pushOperand, if_pos hroom]
    let m₁ : Machine := { m with exec.operands := [.ofInt (Int64.ofNat i)] ++ m.exec.operands }
    have hwindow : window m.exec.operands.length m₁ = .done [.ofInt (Int64.ofNat i)] m₁ :=
      (window_append (m := m₁) rfl).trans rfl
    -- The native is given the position as it was pushed, and asks for the argument there.
    have hposition : parameterValue [.ofInt (Int64.ofNat i)] = Proc.argument i := by
      show Proc.argument (Int64.ofNat i).toInt = _
      rw [Int64.toInt_ofNat_of_lt hi]
    have hnative : ∀ e : EvalState, ∃ k,
        callNative (invoke n) parameterValue e .opening m.exec.operands.length m₁ = .done (v.retagged, e) k := by
      intro e
      rw [callNative, bind_apply, hwindow]
      simp only [Outcome.bind, bind_apply, read, modify, hposition]
      show ∃ k, ((argument i >>= fun v => pure v) _).bind _ = _
      rw [bind_apply, argument_bound (show _ = f :: fs from ?_) hv hs]
      · exact ⟨_, rfl⟩
      · exact hc
    obtain ⟨k, hk⟩ := hnative { block := q, index := index, canSkip := decide (0 ≤ index) &&
      (m.program.kindOf q).type.opens && Marker.opening == .opening }
    refine ⟨{ jump := if 0 ≤ index then none else none, skip := false }, k, ?_⟩
    show (callNative _ _ _ _ _ >>= report _ _) m₁ = _
    rw [bind_apply, hk]
    rfl
  · rw [bind_apply, pushOperand, if_neg (Nat.not_lt.mpr hfull)]
    rfl

end

/-! ## Calls -/

section

variable {p : Program} {R : Region p} {c : ChainId} (hc : R.chains c) {b : BlockId} (hr : (p.kindOf b).role = .call)
  {depth : Nat} {k : Machine} (hk : k.Ready p True) (hd : k.exec.calls.length = depth) (hbusy : k.busy = some b)
include hc hr hk hd hbusy

/-- What is told of every invocation holds of those that calls make. -/
theorem invokeSeen_tells_call (vs : List Value) (n : Nat) (host : Machine → Machine → Prop)
    (hhost : ∀ {m k}, host m k → m.MayResume k) :
    let S : Followed := ⟨p, depth + 1, vs.map Value.retagged, host, hhost⟩
    (invokeSeen n c (vs.map Value.retagged) k).Tells host S.Shows (fun r ms l => S.Shows l ∧
      (S.Recorded → ∀ v, r = .ok v → v.IsScalar →
        v = ((Machine.returned (depth + 1) ms).map Value.retagged).getD .nothing)) [] := by
  intro S
  refine invokeSeen_tells (S := S) R rfl n hc hk.program (by rw [hd]) fun b' hb' => ?_
  -- A call is no return block.
  rw [hbusy] at hb'
  cases hb'
  simp [Definition.isReturn, hr]

variable {vs : List Value} (hvs : ∀ v ∈ vs, v.IsScalar) {n : Nat}
include hvs

/-- At each point of the invocation that a call makes, a placeholder evaluates to what the argument of its parameter
    yielded. -/
theorem placeholder_of_path {r : RegistryId} {h : Handle} {N : Nat} (hs : (p.registry r).Signature h N)
    {ms : List Machine} (hp : (invokeSeen n c (vs.map Value.retagged) k).Path ms) {s : Machine} (hms : s ∈ ms)
    (hlen : s.exec.calls.length = depth + 1) {i : Nat} {h' : Handle} {v : Value}
    (hi : ((p.registry r).params h)[i]? = some h') (hv : vs[i]? = some v) {q : BlockId} (hq : p.IsOf q r h') :
    argument i s = .done v.retagged s ∧ StandsFor q v.retagged s := by
  have htells := invokeSeen_tells_call hc hr hk hd hbusy vs n Machine.MayResume id
  obtain ⟨hprogram, hframe⟩ := (htells.mono fun _ _ _ h => h.1).path hp s hms
  obtain ⟨f, fs, hf, hargs⟩ := hframe hlen
  have hscalar : v.IsScalar := hvs v (List.mem_of_getElem? hv)
  have hbound : f.args[i]? = some v.retagged := by rw [hargs, List.getElem?_map, hv, Option.map_some]
  obtain ⟨d, hd', hplace⟩ := hs.placeholder hi
  obtain rfl : d = p.kindOf q := Option.some.inj (hd'.symm.trans hq.definition_eq)
  obtain ⟨x, hx, -, -⟩ := hq
  have hprog : s.program = p := hprogram
  subst hprog
  have hi' : i < 2 ^ 63 := by
    have hin : i < N := hs.count ▸ (List.getElem?_eq_some_iff.mp hi).1
    have hN := hs.le_handles
    omega
  rw [← Value.retagged_retagged hscalar]
  have hcopy := Value.retagged_scalar hscalar
  exact ⟨argument_bound hf hbound hcopy, standsFor_placeholder hx hplace hi' hf hbound hcopy⟩

/-- The invocation comes to a copy of what its last return block was given, or to nothing. -/
theorem returned_of_invoke {v : Value} {k' : Machine} (h : invoke n c (vs.map Value.retagged) k = .done (.ok v) k') :
    (∃ ms, (invokeSeen n c (vs.map Value.retagged) k).Ran ms (.ok v) k') ∧
      ∀ ms l, (invokeSeen n c (vs.map Value.retagged) k).Ran ms (.ok v) l →
        v = ((Machine.returned (depth + 1) ms).map Value.retagged).getD .nothing := by
  have hscalar : v.IsScalar := by
    have hcopies : ∀ v ∈ vs.map Value.retagged, True → v.IsScalar := by
      intro w hw _
      obtain ⟨u, hu, rfl⟩ := List.mem_map.mp hw
      exact Value.retagged_scalar (hvs u hu)
    have hkeeps := (keeps_control (R := R) True True (.inl trivial) n).2.1 hc hk.toScoped hk.program hk.plain hcopies
    unfold Meets at hkeeps
    rw [h] at hkeeps
    exact hkeeps.2.2 v rfl trivial
  refine ⟨Outcome.Elides.ran (h ▸ (seen_elides n).2.1 c (vs.map Value.retagged) k), fun ms l hran => ?_⟩
  have htells := invokeSeen_tells_call hc hr hk hd hbusy vs n Machine.MayProceed fun h => h.1
  obtain ⟨-, hresult⟩ := htells.ran hran
  exact hresult (fun m k h => h.2) v rfl hscalar

end

end Work

/-- A signature asks for as many arguments as it has parameters. -/
theorem Definition.IsSignature.arity_eq {d : Definition} {n : Nat} (hd : d.IsSignature n) : d.arity = n := by
  have hfilter : d.arity = ((d.inputs.map (·.type)).filter fun t => t == .argument || t == .dropdown).length := by
    rw [List.filter_map, List.length_map]
    rfl
  rw [hfilter, hd.inputs]
  simp

/-- Procedures are given their arguments by position, and anew for each call.

    New procedures, copies of them and linked ones have a placeholder for each of their parameters, in order. In a
    region, where every block is evaluated on a machine that is ready, a call of one evaluates its arguments one
    after the other, in the invocation that it stands in, and then runs the chain, once, on copies of the values.
    At each point of the invocation that this makes, whatever it calls in turn, the placeholder of a parameter
    evaluates to a copy of what the argument at its position yielded. The call evaluates to a copy of what the last
    return block of the invocation was given, or to nothing. -/
theorem procedures_bind_by_position :
    (∀ (r : Registry) (name : Text) (ps : List Text), r.Arena → (r.newProcedure name ps).2.Roomy →
      (r.newProcedure name ps).2.Signature (r.newProcedure name ps).1 ps.length) ∧
    (∀ (r s : Registry) (h h' : Handle) (n : Nat), r.Arena → r.Signature h n → r.copyDefinition h = (.ok h', s) →
      s.Roomy → s.Signature h n ∧ s.Signature h' n) ∧
    (∀ (p : Program) (r q : RegistryId) (cs : List ChainId) (h : Handle) (n : Nat),
      ((p.link r cs).registry q).Signature h n ↔ (p.registry q).Signature h n) ∧
    ∀ (p : Program) (R : Region p),
      (∀ wait : Machine → Bool, (∀ m : Machine, m.exec.calls = [] → wait m = false) →
        (∀ m : Machine, m.Ready p True → wait m = false) →
        ∀ (c : ChainId) (args : List Value) (m : Machine), R.chains c → (∀ v ∈ args, v.IsScalar) → m.Scoped →
          m.program = p → m.Plain → ∀ fuel k resume, Work.invokePaced wait fuel c args m ≠ .paused k resume) ∧
      ∀ (r : RegistryId) (h : Handle) (n : Nat), (p.registry r).Signature h n →
        ∀ (b : BlockId) (c : ChainId), R.blocks b → p.IsOf b r h → (p.kindOf b).owner = some c →
        ∀ m : Machine, m.Ready p True → ∀ (fuel : Nat) (index : Int),
          ((¬ ∃ vs k, Work.Calls (Work.evaluate fuel) b c index m vs k) → ∀ invoke invoke',
            Work.evaluateWith (Work.evaluate fuel) invoke b index .opening false none m =
              Work.evaluateWith (Work.evaluate fuel) invoke' b index .opening false none m) ∧
          (∀ v, (∃ asked l, Work.evaluate (fuel + 1) b index .opening false none m = .done (.ok (v, asked)) l) ↔
            ∃ vs k k', Work.Calls (Work.evaluate fuel) b c index m vs k ∧
              Work.invoke fuel c (vs.map Value.retagged) k = .done (.ok v) k') ∧
          ∀ vs k, Work.Calls (Work.evaluate fuel) b c index m vs k →
            vs.length = n ∧
            (∃ conclude, ∀ invoke, Work.evaluateWith (Work.evaluate fuel) invoke b index .opening false none m =
              (invoke c (vs.map Value.retagged) >>= conclude) k) ∧
            (∀ ms, (Work.invokeSeen fuel c (vs.map Value.retagged) k).Path ms →
              ∀ s ∈ ms, s.exec.calls.length = m.exec.calls.length + 1 →
              ∀ (i : Nat) (h' : Handle) (v : Value) (q : BlockId),
                ((p.registry r).params h)[i]? = some h' → vs[i]? = some v → p.IsOf q r h' →
                Work.argument i s = .done v.retagged s ∧ Work.StandsFor q v.retagged s) ∧
            ∀ v k', Work.invoke fuel c (vs.map Value.retagged) k = .done (.ok v) k' →
              (∃ ms, (Work.invokeSeen fuel c (vs.map Value.retagged) k).Ran ms (.ok v) k') ∧
                ∀ ms l, (Work.invokeSeen fuel c (vs.map Value.retagged) k).Ran ms (.ok v) l →
                  v = ((Machine.returned (m.exec.calls.length + 1) ms).map Value.retagged).getD .nothing := by
  refine ⟨fun r name ps ha hroom => Registry.signature_newProcedure name ps ha hroom, ?_,
    fun p r q cs h n => p.signature_link r q cs, fun p R => ⟨?_, ?_⟩⟩
  · intro r s h h' n ha hs ho hroom
    have hgrows := Registry.copyDefinition_evolves h r
    rw [ho] at hgrows
    exact ⟨hs.grows ha hgrows, hs.copied ha ho hroom⟩
  · intro wait hidle hready c args m hc hargs hscoped hp hplain fuel k resume
    exact Work.invokePaced_ne_paused R hidle hready hc hargs hscoped hp hplain fuel
  · intro r h n hs b c hb hof howner m hm fuel index
    obtain ⟨d, hd, hsig⟩ := hs.kind
    obtain rfl : d = p.kindOf b := Option.some.inj (hd.symm.trans hof.definition_eq)
    have hc : R.chains c := R.called hb hsig.role howner
    refine ⟨fun h invoke invoke' => ?_, fun v => ?_, fun vs k hcalls => ?_⟩
    · exact (Work.evaluateWith_of_not_calls hb hsig.type hsig.role howner hm hsig.native h invoke invoke').1
    · exact Work.evaluate_call_iff hb hsig.type hsig.role howner hm hsig.native fuel index
    · obtain ⟨hk, hlen, hbusy, hvs⟩ := hcalls.ready hb hm
      obtain ⟨outer, -, hconclude, -⟩ :=
        Work.evaluateWith_of_calls hb hsig.type hsig.role howner hm hsig.native hcalls
      refine ⟨(hcalls.length_eq hb hm).trans hsig.arity_eq, ⟨_, hconclude⟩, ?_, fun v k' hinvoke => ?_⟩
      · intro ms hp s hms hdepth i h' v q hi hv hq
        exact Work.placeholder_of_path hc hsig.role hk hlen hbusy hvs hs hp hms hdepth hi hv hq
      · exact Work.returned_of_invoke hc hsig.role hk hlen hbusy hvs hinvoke

def echoRegistry : Registry := (Registry.newProcedure "echo" ["x"] { kinds := Library.standard.toArray }).2

/-- A chain that calls the procedure, and the chain that defines it and returns what the parameter is bound to. -/
def echo : Program :=
  Program.link 0 [0, 1]
    { registries := #[echoRegistry]
      blocks := #[
        ⟨0, ⟨1, 1⟩, 20, [.of .argument (.text "hi")], none, []⟩,
        ⟨0, ⟨2, 1⟩, 2, [.of .definition (.definition ⟨1, 1⟩)], none, []⟩,
        ⟨0, ⟨3, 1⟩, 3, [.of .argument (.block 3)], none, []⟩,
        ⟨0, ⟨0, 1⟩, 19, [], some 2, []⟩]
      chains := #[[0], [1, 2]] }

def echoIdle : Machine := { program := echo, exec := { limits := .standard } }

def echoCalling : Machine := { program := echo, exec := { limits := .standard, calls := [{ args := [] }] } }

theorem echo_call : echo.IsOf 0 0 ⟨1, 1⟩ :=
  ⟨_, ⟨rfl, .call rfl rfl rfl, rfl, List.forall_mem_singleton.mpr (.of _ _ rfl)⟩, rfl, rfl⟩

theorem echo_placeholder : echo.IsOf 3 0 ⟨0, 1⟩ :=
  ⟨_, ⟨rfl, .parameter 0 rfl rfl rfl, rfl, fun _ hs => (by cases hs)⟩, rfl, rfl⟩

/-- The blocks of the program: a call, a hat, a return block and a placeholder. -/
theorem echo_block {b : Nat} (h : b < 4) : b = 0 ∨ b = 1 ∨ b = 2 ∨ b = 3 := by omega

theorem echo_placed {b : BlockId} (h : b < 4) : ∃ x, echo.Placed b x := by
  rcases echo_block h with rfl | rfl | rfl | rfl
  · exact echo_call.imp fun _ h => h.1
  · exact ⟨_, rfl, .of_index 2 (by decide) rfl, rfl, List.forall_mem_singleton.mpr (.of _ _ rfl)⟩
  · exact ⟨_, rfl, .of_index 3 (by decide) rfl, rfl, List.forall_mem_singleton.mpr (.of _ _ rfl)⟩
  · exact echo_placeholder.imp fun _ h => h.1

/-- The only block of the program that stands in an argument. -/
theorem echo_nested {b b' : BlockId} {x : Block} {s : Slot} (hb : b < 4) (hx : echo.blocks[b]? = some x)
    (hs : s ∈ x.slots) (hp : s.payload = .block b') : b' = 3 := by
  rcases echo_block hb with rfl | rfl | rfl | rfl
  · cases hx
    cases List.mem_singleton.mp hs
    cases hp
  · cases hx
    cases List.mem_singleton.mp hs
    cases hp
  · cases hx
    cases List.mem_singleton.mp hs
    cases hp
    rfl
  · cases hx
    cases hs

def echoRegion : Region echo where
  chains c := c < 2
  blocks b := b < 4
  listed := by
    intro c b hc hb
    obtain rfl | rfl := Nat.le_one_iff_eq_zero_or_eq_one.mp (Nat.le_of_lt_succ hc)
    · exact (by decide : ∀ b ∈ echo.chain 0, b < 4) b hb
    · exact (by decide : ∀ b ∈ echo.chain 1, b < 4) b hb
  placed := echo_placed
  nested hb hx hs hp := echo_nested hb hx hs hp ▸ by decide
  called {b c} hb hr ho := by
    rcases echo_block hb with rfl | rfl | rfl | rfl
    · cases ho
      decide
    · cases hr
    · cases hr
    · cases hr

theorem echo_arena : Registry.Arena { kinds := Library.standard.toArray } :=
  ⟨.nil, fun i => ⟨nofun, fun h => absurd h.1 (Nat.not_lt_zero _)⟩, fun h => (by cases h), fun h => (by cases h)⟩

theorem echoRegistry_roomy : echoRegistry.Roomy := Registry.roomy_of_forall (by decide) (by decide)

theorem echoIdle_plain : echoIdle.Plain := ⟨nofun, nofun, nofun, nofun, nofun⟩

theorem echoCalling_ready : echoCalling.Ready echo True :=
  ⟨List.cons_ne_nil _ _, ⟨[], [], rfl, .nil _ _, rfl⟩, rfl, fun _ =>
    ⟨nofun, nofun, nofun, List.forall_mem_singleton.mpr nofun, List.forall_mem_singleton.mpr nofun⟩⟩

def echoBegun : Machine :=
  Work.calling { block := 0, index := 0, canSkip := false } .opening [.ofChain (some 1), .ofText "hi"] [.ofText "hi"]
    { echoCalling with exec.operands := [.ofText "hi", .ofChain (some 1)] }

open Classical in
theorem procedures_bind_by_position_echo :
    echoRegistry.Signature ⟨1, 1⟩ 1 ∧ (echoRegistry.copyDefinition ⟨1, 1⟩).2.Signature ⟨3, 1⟩ 1 ∧
      (∀ fuel k resume, Work.invokePaced (fun m => decide (m.exec.calls ≠ [] ∧ ¬ m.Ready echo True)) fuel 0 []
        echoIdle ≠ .paused k resume) ∧
      (∃ asked l, Work.evaluate 9 0 0 .opening false none echoCalling = .done (.ok (.ofText "hi", asked)) l) ∧
      (∃ s, (Work.invokeSeen 8 1 [.ofText "hi"] echoBegun).Path [s] ∧ Work.StandsFor 3 (.ofText "hi") s) ∧
      ∃ ms k, (Work.invokeSeen 8 1 [.ofText "hi"] echoBegun).Ran ms (.ok (.ofText "hi")) k ∧
        .ofText "hi" = ((Machine.returned 2 ms).map Value.retagged).getD .nothing := by
  obtain ⟨hnew, hcopies, hlinks, hcalls⟩ := procedures_bind_by_position
  have hsignature : echoRegistry.Signature ⟨1, 1⟩ 1 :=
    hnew { kinds := Library.standard.toArray } "echo" ["x"] echo_arena echoRegistry_roomy
  have harena : echoRegistry.Arena := echo_arena.of_evolves (Registry.newProcedure_evolves "echo" ["x"] _)
  obtain ⟨-, hcopied⟩ := hcopies echoRegistry (echoRegistry.copyDefinition ⟨1, 1⟩).2 ⟨1, 1⟩ ⟨3, 1⟩ 1 harena hsignature
    rfl (Registry.roomy_of_forall (by decide) (by decide))
  have hlinked : (echo.registry 0).Signature ⟨1, 1⟩ 1 := (hlinks _ 0 0 [0, 1] ⟨1, 1⟩ 1).mpr hsignature
  obtain ⟨hwaits, hcalls⟩ := hcalls echo echoRegion
  have hbegun : Work.Calls (Work.evaluate 8) 0 1 0 echoCalling [.ofText "hi"] echoBegun :=
    ⟨_, _, _, rfl, rfl, .text rfl (.nil _), rfl⟩
  -- What the argument yields is a constant, which is copied as it is.
  have hcopy : [Value.ofText "hi"].map Value.retagged = [.ofText "hi"] := rfl
  obtain ⟨k, hinvoke⟩ : ∃ k, Work.invoke 8 1 [.ofText "hi"] echoBegun = .done (.ok (.ofText "hi")) k := ⟨_, rfl⟩
  obtain ⟨s, hpath, hlen⟩ : ∃ s, (Work.invokeSeen 8 1 [.ofText "hi"] echoBegun).Path [s] ∧ s.exec.calls.length = 2 :=
    ⟨_, .paused _ _, rfl⟩
  rw [← hcopy] at hinvoke hpath ⊢
  obtain ⟨-, hvalues, hbound⟩ := hcalls 0 ⟨1, 1⟩ 1 hlinked 0 1 (Nat.succ_pos 3) echo_call rfl echoCalling
    echoCalling_ready 8 0
  obtain ⟨-, -, hpoints, hresults⟩ := hbound _ _ hbegun
  obtain ⟨⟨ms, hran⟩, hreturned⟩ := hresults _ k hinvoke
  refine ⟨hsignature, hcopied, ?_, ?_, ⟨s, hpath, ?_⟩, ms, k, hran, hreturned ms k hran⟩
  · refine hwaits _ (fun m hm => ?_) (fun m hm => ?_) 0 [] echoIdle (Nat.succ_pos 1) nofun rfl rfl echoIdle_plain
    · exact decide_eq_false fun h => h.1 hm
    · exact decide_eq_false fun h => h.2 hm
  · exact (hvalues _).mpr ⟨_, _, k, hbegun, hinvoke⟩
  · exact (hpoints [s] hpath s (List.mem_singleton_self s) hlen 0 ⟨0, 1⟩ (.ofText "hi") 3 rfl rfl echo_placeholder).2

end BlockEngine
