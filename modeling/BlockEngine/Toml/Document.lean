/-
  BlockEngine.Toml.Document — what the statements of a document define together.

  Statements are taken in order into a draft. A table that a longer key or header needs on its
  way comes to be by itself; its key is implied until a statement names it. A key is defined once,
  and an implied key once more: it keeps what it holds, unless an array was written for it, in
  whose place the new value is put. A header for the next table of an array of tables adds a table
  to it, which the array stands for in longer keys.
-/

import BlockEngine.Toml.Statement

namespace BlockEngine.Toml

inductive Node where
  | scalar (s : Scalar)
  | array (items : List Node)
  | tables (ts : List (List (Text × Node)))
  | table (t : List (Text × Node))

structure Document where
  root : Table Node
  /-- Every key that a header or a pair wrote, in order. -/
  keys : List Key

structure Draft where
  root : Table Node := []
  /-- Keys of tables that no statement has named yet. -/
  implied : List Key := []
  /-- Keys that an array was written for last. -/
  arrays : List Key := []
  /-- The keys written, the last first. -/
  written : List Key := []

abbrev Drafting := StateT Draft Option

namespace Drafting

/-- Changes the table at a key. An array of tables stands for its last one. -/
def alter (f : Table Node → Option (Table Node)) : Key → Table Node → Option (Table Node)
  | [], t => f t
  | k :: rest, t =>
    match t.get? k with
    | some (.table u) => (alter f rest u).map fun u => t.set k (.table u)
    | some (.tables us) =>
      match us.getLast? with
      | some u => (alter f rest u).map fun u => t.set k (.tables (us.dropLast ++ [u]))
      | none => none
    | _ => none

def lookUp (context : Key) (k : Text) (t : Table Node) : Option (Option Node) :=
  match context with
  | [] => some (t.get? k)
  | c :: rest =>
    match t.get? c with
    | some (.table u) => lookUp rest k u
    | some (.tables us) => us.getLast?.bind (lookUp rest k)
    | _ => none

def onRoot (f : Table Node → Option (Table Node)) : Drafting Unit := fun d =>
  (f d.root).map fun root => ((), { d with root := root })

def put (context : Key) (k : Text) (n : Node) : Drafting Unit :=
  onRoot (alter (fun t => some (t.set k n)) context)

def imply (k : Key) : Drafting Unit := modify fun d => { d with implied := k :: d.implied }

def name (k : Key) : Drafting Unit := modify fun d => { d with implied := d.implied.filter (· != k) }

def write (k : Key) : Drafting Unit := modify fun d => { d with written := k :: d.written }

/-- Notes whether an array was written for a key. The empty key stands for the table it is in. -/
def noteArray (context : Key) (k : Text) (isArray : Bool) : Drafting Unit :=
  let whole := if k.isEmpty then context else context ++ [k]
  let whole := if whole.isEmpty then [[]] else whole
  modify fun d =>
    { d with arrays := if isArray then whole :: d.arrays else d.arrays.filter (· != whole) }

def define (context : Key) (k : Text) (n : Node) : Drafting Unit := do
  let d ← get
  let whole := context ++ [k]
  match ← liftM (lookUp context k d.root) with
  | none => put context k n
  | some _ =>
    if !d.implied.contains whole then failure
    else
      name whole
      if d.arrays.contains whole then put context k n

/-- Passes through tables from the one at `context` on, making those that are missing. -/
def pass (context : Key) : Key → Drafting Unit
  | [] => return ()
  | k :: rest => do
    let d ← get
    let here := context ++ [k]
    match ← liftM (lookUp context k d.root) with
    | none =>
      imply here
      put context k (.table [])
    | some (.table _) => pure ()
    | some (.tables _) => pure ()
    | some _ => failure
    pass here rest

def openTable (k : Key) : Drafting Unit := do
  pass [] k.dropLast
  define k.dropLast (k.getLastD []) (.table [])

def openNext (k : Key) : Drafting Unit := do
  pass [] k.dropLast
  let last := k.getLastD []
  onRoot (alter (fun t =>
    match t.get? last with
    | none => some (t.set last (.tables [[]]))
    | some (.tables ts) => some (t.set last (.tables (ts ++ [[]])))
    | some _ => none) k.dropLast)

/-- Opens the tables of the parts of a key but the last, one inside the other. -/
def descend (context : Key) : Key → Drafting Key
  | [] => return context
  | [_] => return context
  | k :: rest => do
    let here := context ++ [k]
    imply here
    openTable here
    descend here rest

def insert (n : Node) : Key → Table Node → Option (Table Node)
  | [], t => some t
  | [k], t => some (t.set k n)
  | k :: rest, t =>
    match t.get? k with
    | none => (insert n rest []).map fun u => t.set k (.table u)
    | some (.table u) => (insert n rest u).map fun u => t.set k (.table u)
    | some _ => none

mutual

/-- The value for a key in the table at `context`. The pairs of an inline table are defined as
    if they stood below a header of their own. -/
def value (context : Key) (k : Text) (inArray : Bool) : Expr → Drafting Node
  | .scalar s => return .scalar s
  | .array xs => do
    noteArray context k true
    return .array (← values context k xs)
  | .inline ps => do
    let here := context ++ [k]
    imply here
    if inArray then openNext here else openTable here
    return .table (← pairs here [] ps)

def values (context : Key) (k : Text) : List Expr → Drafting (List Node)
  | [] => return []
  | x :: xs => do
    let n ← value context k true x
    return n :: (← values context k xs)

def pairs (context : Key) (t : Table Node) : List (Key × Expr) → Drafting (Table Node)
  | [] => return t
  | (k, x) :: rest => do
    let inner ← descend context k
    let last := k.getLastD []
    write (inner ++ [last])
    let n ← value inner last false x
    define inner last n
    noteArray inner last (n matches .array _)
    match insert n k t with
    | some t => pairs context t rest
    | none => failure

end

/-- Takes statements in order, those after a header into its table. -/
def take (context : Key) : List Statement → Drafting Unit
  | [] => return ()
  | .table k :: rest => do
    openTable k
    noteArray k [] false
    write k
    take k rest
  | .nextTable k :: rest => do
    openNext k
    noteArray k [] false
    write k
    take k rest
  | .pair k x :: rest => do
    let _ ← pairs context [] [(k, x)]
    take context rest

end Drafting

def Document.ofStatements (ss : List Statement) : Option Document :=
  (Drafting.take [] ss {}).map fun r => { root := r.2.root, keys := r.2.written.reverse }

def Document.ofText (t : Text) : Option Document := (statements t).bind ofStatements

end BlockEngine.Toml
