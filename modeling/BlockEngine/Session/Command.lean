/-
  BlockEngine.Session.Command — what can be asked of a session, and what it replies.

  A session is a world whose objects have names: engines, handles, blocks, chains, interpreters
  and runs. Commands name the objects they work on and the ones they make.
-/

import BlockEngine.Run.Lifecycle
import BlockEngine.Run.Script

namespace BlockEngine.Session

/-- Where the code of a new kind comes from. -/
inductive NativeSpec where
  | none
  /-- The code of a standard block. -/
  | standard (id : Text)
  /-- The code of the kind behind a handle of the main engine. -/
  | same (handle : Text)
  | script (s : Script)

structure InputSpec where
  type : InputType
  text : Text
  options : List Text
  /-- The name of the handle of an embedded definition, if any. -/
  child : Option Text

structure KindSpec where
  id : Text
  type : BlockType
  color : Text
  hidden : Bool
  inputs : List InputSpec
  native : NativeSpec

mutual

inductive BlockSpec where
  /-- A standard block. -/
  | standard (id : Text) (args : List ArgSpec)
  /-- A block of any kind. -/
  | use (handle : Text) (args : List ArgSpec)
  /-- A placeholder of a procedure's parameter. -/
  | param (handle : Text) (i : Int)
  /-- A block that has a name already. -/
  | named (name : Text)

inductive ArgSpec where
  | text (t : Text)
  | block (b : BlockSpec)
  | foreign (typeName : Text)

end

inductive Command where
  | std (engine : Text)
  | register (engine as : Text) (k : KindSpec)
  | custom (engine as : Text) (k : KindSpec)
  | procedure (engine as name : Text) (params : List Text)
  | unregister (engine h : Text)
  | retain (engine h : Text)
  | release (engine h : Text)
  | refCount (engine h : Text)
  | definition (engine h : Text)
  | lookup (engine as id : Text)
  | palette (engine : Text)
  | visible (engine : Text)
  | terminator (engine as : Text)
  | size (engine : Text)
  | copyDefinition (engine as h : Text)
  | params (engine h : Text) (names : List Text)
  | block (engine as h : Text)
  | place (engine as : Text) (spec : BlockSpec)
  | copyBlock (as b : Text) (parent : Option Text)
  | destroyBlock (b : Text)
  | showBlock (b : Text)
  | setText (b : Text) (slot : Int) (t : Text)
  | setConst (b : Text) (slot : Int) (t : Text)
  | nest (b : Text) (slot : Int) (child : Text)
  | setDefinition (b : Text) (slot : Int) (h : Text)
  | clear (b : Text) (slot : Int)
  | takeBlock (as b : Text) (slot : Int)
  | slotHandle (as b : Text) (slot : Int)
  | chain (as : Text) (blocks : List Text)
  | placeChain (engine as : Text) (specs : List BlockSpec)
  | program (engine as : Text) (specs : List BlockSpec)
  | define (engine as name : Text) (params : List Text)
  | append (c : Text) (blocks : List Text)
  | nthBlock (as c : Text) (position : Int)
  | validate (c : Text)
  | chainInfo (c : Text)
  | signature (as c : Text)
  | showChain (c : Text)
  | insert (dst src : Text) (position : Int)
  | detach (dst src : Text) (position : Int)
  | copyRun (as c : Text) (position : Int)
  | copyTail (as c : Text) (position : Int)
  | destroyChain (c : Text)
  | close (engine c : Text)
  | libHandle (engine as id : Text)
  | newEngine (as : Text)
  | addChain (engine c : Text)
  | removeChain (engine c : Text)
  | chains (engine : Text)
  | engineRunning (engine : Text)
  | exec (as : Text) (limits : Limits)
  | execState (x : Text)
  | act (x : Text) (actions : List Script.Action)
  | start (engine as x : Text) (cause : Option CancelCause)
  | resume (r : Text)
  | cancel (r : Text) (cause : CancelCause)
  | tryJoin (r : Text)
  | join (r : Text)
  | runError (r : Text)

/-! ## Views -/

/-- A block as shown: its slots, with the blocks nested in them and whether each knows this one as
    its parent. -/
inductive BlockView where
  | mk (id : Text) (handle : Handle) (type : BlockType) (parent : Option Text)
    (slots : List (Slot × Option (BlockView × Bool)))

/-- A definition as shown, with the name of the chain that it is linked to. -/
structure DefinitionView where
  definition : Definition
  owner : Option Text

structure Report where
  events : List Event
  output : Text

structure RunView where
  ending : Ending
  report : Report
  counts : Counts
  running : Bool

inductive Reply where
  | ok
  | count (n : Nat)
  | flag (b : Bool)
  | handle (h : Handle)
  | handles (hs : List Handle)
  | found (h : Option Handle)
  | definition (d : Option DefinitionView)
  | block (b : Option BlockView)
  | blocks (bs : List BlockView)
  | ids (ids : List Text)
  | defined (ids : List Text) (h : Handle)
  | chainInfo (length : Nat) (entry : Bool) (signature : Option Handle)
  | spliced (error : Option Error) (dst src : List Text)
  | names (names : List (Option Text))
  | limits (l : Limits)
  | execState (running : Bool) (counts : Counts)
  | acted (result : Except Fault Value) (counts : Counts) (report : Report)
  | progress (paused : Bool) (report : Report)
  | status (s : Status) (done : Bool)
  | run (r : RunView)
  | ending (e : Option Error)
  | error (e : Error)
  | fault (f : Fault)

end BlockEngine.Session
