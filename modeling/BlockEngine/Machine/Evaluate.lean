/-
  BlockEngine.Machine.Evaluate — running blocks and chains.

  Evaluating a block pushes its operands, calls its native on exactly those, and drops them
  again. Running a chain walks its blocks from top to bottom. A block that opens a body leaves a
  frame with what it yielded; the block that closes the body takes the frame, frees what was
  declared in the body, and re-enters the opener with the closing marker. Natives redirect the
  walk by jumps, suppress a body, or end the invocation. The blocks of a suppressed body are
  walked for their frames only.

  `advance` is one turn of the walk. Recursion, through nested blocks, calls and further turns,
  takes fuel: `evaluate`, `invoke` and `walk` starve without.
-/

import BlockEngine.Machine.Answer

namespace BlockEngine

structure Asked where
  jump : Option Nat
  skip : Bool

/-- Evaluates a block: at a position, entered with a marker, with or without its declared
    arguments, and after the value of the branch before it, if it continues one. -/
abbrev Evaluator :=
  (b : BlockId) → (index : Int) → (mark : Marker) → (bare : Bool) → (prior : Option Value) →
    Work (Except Error (Value × Asked))

structure Cursor where
  position : Nat := 0
  /-- The layer whose closing ends the suppression of a body. -/
  suppressed : Option Nat := none
  /-- The next block goes without its declared arguments. -/
  bareNext : Bool := false

inductive Turn where
  | next (cursor : Cursor)
  | stop (error : Option Error)

namespace Work

def kindOf (b : BlockId) : Work Definition := read (·.program.kindOf b)

def blocksOf (c : ChainId) : Work (List BlockId) := read (·.program.chain c)

def blockAt (c : ChainId) (i : Nat) : Work BlockId := do
  let bs ← blocksOf c
  match bs[i]? with
  | some b => return b
  | none => crash (.error (.access (.index i bs.length)))

def slotAt (b : BlockId) (i : Nat) : Work (Option Slot) := read fun m => do
  let x ← m.program.blocks[b]?
  x.slots[i]?

def slotCount (b : BlockId) : Work Nat := read fun m =>
  match m.program.blocks[b]? with
  | some x => x.slots.length
  | none => 0

/-! ## Operands -/

def releasePrior : Option Value → Work Unit
  | some v => release v
  | none => pure ()

/-- Pushes the operands that no input declares: a placeholder's position, the chain that a call
    runs, the marker of a control block, the value of the branch before. -/
def pushHidden (d : Definition) (index : Int) (mark : Marker) (prior : Option Value) :
    Work (Except Error Unit) := do
  if let .parameter i := d.role then
    pushOperand (.ofInt (Int64.ofNat i))
  if d.role = .call ∧ d.owner = none then
    releasePrior prior
    return .error (.inBlock d.id index .unlinked)
  else
    if d.role = .call then
      pushOperand (.ofChain d.owner)
    if d.type.opens then
      pushOperand (.ofMarker mark)
    if let some v := prior then
      pushOperand v
    return .ok ()

/-- Pushes what a slot of a block of kind `d` yields. A definition under edit is no operand. -/
def pushSlot (eval : Evaluator) (d : Definition) (index : Int) (s : Slot) :
    Work (Except Error Unit) := do
  match s.type with
  | .text | .const =>
    pushOperand (.ofText s.text)
    return .ok ()
  | .block =>
    match s.block with
    | none => crash (.error (.access .absent))
    | some c =>
      match ← eval c (-1) .opening false none with
      | .error e => return .error e
      | .ok (v, _) =>
        pushOperand v
        return .ok ()
  | .definition => return .ok ()
  | .unknown => return .error (.inBlock d.id index (.unsupportedSlot s.type.name))

def pushSlots (eval : Evaluator) (d : Definition) (b : BlockId) (index : Int) :
    List Nat → Work (Except Error Unit)
  | [] => return .ok ()
  | i :: rest => do
    match ← slotAt b i with
    | none => pushSlots eval d b index rest
    | some s =>
      match ← pushSlot eval d index s with
      | .error e => return .error e
      | .ok () => pushSlots eval d b index rest

/-- Pushes the declared arguments, unless they are left out or the block is re-entered. -/
def pushDeclared (eval : Evaluator) (d : Definition) (b : BlockId) (index : Int) (mark : Marker)
    (bare : Bool) : Work (Except Error Unit) := do
  if bare || mark == .closing then return .ok ()
  else pushSlots eval d b index (List.range (← slotCount b))

/-- Calls a native on the operands above `base` and drops them. -/
def callNative (invoke : Invoker) (native : Native) (e : EvalState) (mark : Marker) (base : Nat) :
    Work (Value × EvalState) := do
  let args ← window base
  let outer ← read (·.exec.eval)
  modify fun m =>
    { m with
      exec.eval := some e
      journal := ⟨e.block, e.index, mark, args⟩ :: m.journal }
  let v ← perform invoke (native args)
  let inner ← read (·.exec.eval)
  mapExec fun x => { x with eval := outer }
  truncateOperands base
  return (v, inner.getD e)

def pushOperands (eval : Evaluator) (d : Definition) (b : BlockId) (index : Int) (mark : Marker)
    (bare : Bool) (prior : Option Value) : Work (Except Error Unit) := do
  match ← pushHidden d index mark prior with
  | .error e => return .error e
  | .ok () => pushDeclared eval d b index mark bare

/-- Evaluates a block, with `eval` for nested blocks and `invoke` for calls. -/
def evaluateWith (eval : Evaluator) (invoke : Invoker) : Evaluator :=
  fun b index mark bare prior => do
    let d ← kindOf b
    match d.native with
    | none =>
      releasePrior prior
      return .error (.inBlock d.id index .noNative)
    | some native =>
      let base ← read (·.exec.operands.length)
      match ← pushOperands eval d b index mark bare prior with
      | .error e =>
        truncateOperands base
        return .error e
      | .ok () =>
        let canSkip := decide (0 ≤ index) && d.type.opens && mark == .opening
        let (v, e) ← callNative invoke native { block := b, index, canSkip } mark base
        match e.error with
        | some x =>
          release v
          return .error (x.blame d.id index)
        | none => return .ok (v, ⟨if 0 ≤ index then e.jump else none, e.skip⟩)

/-! ## The walk -/

def layerAt (depth : Nat) : Work Nat := read fun m =>
  match m.exec.frame? depth with
  | some f => f.layer
  | none => 0

def setLayer (depth layer : Nat) : Work Unit :=
  mapExec (Exec.mapFrame depth fun f => { f with layer := layer })

def isFinished (depth : Nat) : Work Bool := read fun m =>
  match m.exec.frame? depth with
  | some f => f.result.isSome
  | none => false

def openBody (depth position : Nat) (v : Value) : Work Nat := do
  pushControl (.body position v)
  let layer := (← layerAt depth) + 1
  setLayer depth layer
  return layer

def badJump (c : ChainId) (position : Nat) : Work Error := do
  let b ← blockAt c position
  return .inBlock (← kindOf b).id position .badJump

/-- What closing a body comes to: the turn is over, or goes on with the block that closed it. -/
inductive Closed where
  | over (turn : Turn)
  | onward (cursor : Cursor) (prior : Option Value)

/-- Re-enters the opener of a body that was run and is closed by a block of type `t`. -/
def reenter (eval : Evaluator) (c : ChainId) (depth : Nat) (cursor : Cursor) (t : BlockType)
    (opener : Nat) (v : Value) : Work Closed := do
  let b ← blockAt c opener
  match ← eval b opener .closing true (some v) with
  | .error e => return .over (.stop (some e))
  | .ok (v, asked) =>
    if ← isFinished depth then
      release v
      return .over (.stop none)
    else
      match asked.jump with
      | some j =>
        release v
        if (← blocksOf c).length < j then return .over (.stop (some (← badJump c opener)))
        else return .over (.next { cursor with position := j, bareNext := v.isOmitted })
      | none =>
        if t == .terminator then
          release v
          return .over (.next { cursor with position := cursor.position + 1 })
        else return .onward cursor (some v)

/-- Closes the innermost open body at a block of type `t`. Where none is open a continuation is
    passed over, and a terminator breaks down. -/
def closeBody (eval : Evaluator) (c : ChainId) (depth : Nat) (cursor : Cursor) (t : BlockType) :
    Work Closed := do
  let layer ← layerAt depth
  if layer = 0 then
    if t == .continuation then
      return .over (.next { cursor with position := cursor.position + 1 })
    else crash (stackFault .control .pop (← read (·.exec.limits.control)))
  else
    let (opener, v) ← popBody
    closeScope depth layer
    setLayer depth (layer - 1)
    let cursor :=
      if cursor.suppressed.any (layer - 1 < ·) then { cursor with suppressed := none } else cursor
    if cursor.suppressed.isSome then
      release v
      if t == .terminator then
        return .over (.next { cursor with position := cursor.position + 1 })
      else return .onward cursor none
    else reenter eval c depth cursor t opener v

def leave (c : ChainId) (depth : Nat) (cursor : Cursor) (position target : Nat) (v : Value)
    (skip : Bool) : Work Turn := do
  let b ← blockAt c position
  if (← kindOf b).type.opens then
    let layer ← openBody depth position v
    return .next
      { cursor with
        position := target
        suppressed := if skip then some layer else cursor.suppressed }
  else
    release v
    return .next { cursor with position := target }

/-- Enters, in place of a continuation that asked for it, another branch of its group with the
    value of the continuation. A jump out of the chain is not taken from there. -/
def redirect (eval : Evaluator) (c : ChainId) (depth : Nat) (cursor : Cursor) (target : Nat)
    (v : Value) : Work Turn := do
  let b ← blockAt c target
  match ← eval b target .opening false (some v) with
  | .error e => return .stop (some e)
  | .ok (v, asked) =>
    if ← isFinished depth then
      release v
      return .stop none
    else
      let size := (← blocksOf c).length
      let next := match asked.jump with
        | some j => if j ≤ size then j else target + 1
        | none => target + 1
      leave c depth cursor target next v asked.skip

def enter (eval : Evaluator) (c : ChainId) (depth : Nat) (cursor : Cursor) (b : BlockId)
    (t : BlockType) (prior : Option Value) : Work Turn := do
  let i := cursor.position
  let bare := cursor.bareNext || prior.any (·.isOmitted)
  let cursor := { cursor with bareNext := false }
  match ← eval b i .opening bare prior with
  | .error e => return .stop (some e)
  | .ok (v, asked) =>
    if ← isFinished depth then
      release v
      return .stop none
    else
      match asked.jump with
      | none => leave c depth cursor i (i + 1) v asked.skip
      | some j =>
        let size := (← blocksOf c).length
        if size < j then
          release v
          return .stop (some (← badJump c i))
        else if t == .continuation && j != i + 1 && decide (j < size) then
          redirect eval c depth cursor j v
        else leave c depth cursor i j v asked.skip

def passOver (depth : Nat) (cursor : Cursor) (t : BlockType) : Work Turn := do
  if t.opens then
    let _ ← openBody depth cursor.position .nothing
  return .next { cursor with position := cursor.position + 1 }

def advance (eval : Evaluator) (c : ChainId) (depth : Nat) (cursor : Cursor) : Work Turn := do
  match (← blocksOf c)[cursor.position]? with
  | none => return .stop none
  | some b =>
    match ← read (·.exec.cancelled) with
    | some cause => return .stop (some (.cancelled cause))
    | none =>
      let t := (← kindOf b).type
      let closed ←
        if t.closes then closeBody eval c depth cursor t else pure (.onward cursor none)
      match closed with
      | .over turn => return turn
      | .onward cursor prior =>
        if cursor.suppressed.isSome then passOver depth cursor t
        else enter eval c depth cursor b t prior

def takeResult (depth : Nat) : Work Value := do
  let f ← read (·.exec.frame? depth)
  mapExec (Exec.mapFrame depth fun f => { f with result := none })
  return (f.bind (·.result)).getD .nothing

/-- Runs a chain as one invocation, with `walk` for its blocks. -/
def invokeWith (walk : ChainId → Nat → Work (Option Error)) : Invoker := fun c args => do
  let base ← read (·.exec.control.length)
  pushCall { args := args }
  let depth ← read (·.exec.calls.length)
  let error ← walk c depth
  closeScope depth 0
  truncateControl base
  let v ← takeResult depth
  popCall
  match error with
  | some e =>
    release v
    return .error e
  | none => return .ok v

mutual

def evaluate : Nat → Evaluator
  | 0 => fun _ _ _ _ _ => starve
  | n + 1 => evaluateWith (evaluate n) (invoke n)

def invoke : Nat → Invoker
  | 0 => fun _ _ => starve
  | n + 1 => invokeWith fun c depth => walk n c depth {}

/-- Walks a chain from a cursor to its end; the error that stopped it, if one did. -/
def walk : Nat → ChainId → Nat → Cursor → Work (Option Error)
  | 0, _, _, _ => starve
  | n + 1, c, depth, cursor =>
    bind (advance (evaluate n) c depth cursor) fun
      | .next cursor => walk n c depth cursor
      | .stop error => pure error

end

end Work

end BlockEngine
