/-
  BlockEngine.Program.Balance — bodies nest like brackets.

  Control blocks open a body, terminators close one, continuations close one and open another.
  `check` scans a chain once and reports the first block that closes what is not open, or how
  many bodies stay open. `runLength` measures the balanced run that starts a sequence.
-/

import BlockEngine.Error

namespace BlockEngine.Balance

/-- Scans blocks from a position and with a number of open bodies on. -/
def scan : (depth position : Nat) → List (BlockType × Text) → Option Error
  | 0, _, [] => none
  | depth + 1, _, [] => some (.unclosed (depth + 1))
  | depth, i, (t, id) :: rest =>
    match t, depth with
    | .control, depth => scan (depth + 1) (i + 1) rest
    | .continuation, 0 => some (.dangling id i)
    | .terminator, 0 => some (.unmatched id i)
    | .terminator, depth + 1 => scan depth (i + 1) rest
    | _, depth => scan depth (i + 1) rest

/-- What is wrong with the nesting of a chain, if anything is. -/
def check (blocks : List (BlockType × Text)) : Option Error := scan 0 0 blocks

def weight : BlockType → Int
  | .control => 1
  | .terminator => -1
  | _ => 0

/-- The number of blocks up to the first at which no body is open, or of all. -/
def runLength (depth : Int) : List BlockType → Nat
  | [] => 0
  | t :: rest =>
    let depth := depth + weight t
    if depth = 0 then 1 else 1 + runLength depth rest

/-- Where the balanced run that starts at a position ends: one statement, or a group with its
    continuations. A group that is not closed runs to the end. -/
def runEnd (blocks : List (BlockType × Text)) (position : Int) : Except Error Nat :=
  match (if 0 ≤ position then blocks[position.toNat]? else none) with
  | none => .error (.outOfRange position)
  | some (t, id) =>
    if t.closes then .error (.closingStart t id)
    else .ok (position.toNat + runLength 0 ((blocks.drop position.toNat).map (·.1)))

/-- How many bodies are open at the end, counting every terminator. -/
def excess (blocks : List BlockType) : Int := (blocks.map weight).foldr (· + ·) 0

end BlockEngine.Balance
