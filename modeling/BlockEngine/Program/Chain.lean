/-
  BlockEngine.Program.Chain — building chains and moving blocks between them.
-/

import BlockEngine.Program.Balance
import BlockEngine.Program.Block

namespace BlockEngine

def Program.validate (p : Program) (c : ChainId) : Option Error := Balance.check (p.outline c)

def Program.detachAll (bs : List BlockId) (p : Program) : Program :=
  bs.foldl (fun p b => p.relink b none) p

def Program.destroyChain (c : ChainId) (p : Program) : Program :=
  ((p.chain c).foldl (fun p b => p.destroyBlock b) p).setChain c []

namespace Edit

def newChain (bs : List BlockId) : Edit ChainId :=
  ofState fun p => (p.detachAll bs).addChain bs

def append (c : ChainId) (bs : List BlockId) : Edit Unit :=
  modify fun p =>
    let p := p.detachAll bs
    p.setChain c (p.chain c ++ bs)

/-- Moves every block of `src` into `dst`, the first of them to position `i`. The source is
    emptied first: a chain moved into itself anywhere but at its start breaks down, and is lost. -/
def insert (dst src : ChainId) (i : Int) : Edit (Except Error Unit) := do
  let p ← get
  if i < 0 ∨ (p.chain dst).length < i then return .error (.outOfRange i)
  else
    let moved := p.chain src
    modify fun p => p.setChain src []
    let rest := (← get).chain dst
    if rest.length < i then crash (.error (.access (.segment i.toNat 0)))
    else
      modify fun p =>
        (p.setChain dst (rest.take i.toNat ++ moved ++ rest.drop i.toNat)).detachAll moved
      return .ok ()

/-- Moves the balanced run at position `i` of `src` to the end of `dst`. -/
def detach (dst src : ChainId) (i : Int) : Edit (Except Error Unit) := do
  let p ← get
  match Balance.runEnd (p.outline src) i with
  | .error e => return .error e
  | .ok stop =>
    let bs := p.chain src
    let moved := (bs.drop i.toNat).take (stop - i.toNat)
    let rest := bs.take i.toNat ++ bs.drop stop
    modify fun p => p.setChain src rest
    append dst moved
    modify fun p => p.detachAll (p.chain src)
    return .ok ()

def copyBlocks (bs : List BlockId) : Edit ChainId := do
  let copies ← bs.mapM fun b => copyBlock b none
  ofState fun p => p.addChain copies

def copyRun (c : ChainId) (i : Int) : Edit (Except Error ChainId) := do
  let p ← get
  match Balance.runEnd (p.outline c) i with
  | .error e => return .error e
  | .ok stop => return .ok (← copyBlocks (((p.chain c).drop i.toNat).take (stop - i.toNat)))

def copyTail (c : ChainId) (i : Int) : Edit (Except Error ChainId) := do
  let bs := (← get).chain c
  if i < 0 ∨ bs.length ≤ i then return .error (.outOfRange i)
  else return .ok (← copyBlocks (bs.drop i.toNat))

end Edit

end BlockEngine
