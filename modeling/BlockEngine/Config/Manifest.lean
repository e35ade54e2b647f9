/-
  BlockEngine.Config.Manifest — the configuration of an engine.

  A manifest is read from a file of a fixed name. It names the program, sets the capacities of the
  stacks, limits the time of a run and says how to log. What it leaves out has a standard value; a
  key that it does not know is refused, so that no misspelt setting is lost. Of several faults a
  value of the wrong type comes first, then an unknown key, then a timeout that is none.
-/

import BlockEngine.Config.Duration
import BlockEngine.Config.Path
import BlockEngine.Machine.Exec
import BlockEngine.Toml.Document

namespace BlockEngine.Config

structure Manifest where
  name : Text := "untitled"
  limits : Limits := .standard
  /-- The time limit of a run as written, empty for none. -/
  timeoutText : Text := []
  verbosity : Int := 0
  /-- The log file as written, empty for none. -/
  path : Text := []
  /-- The directory of the file that this was read from. -/
  directory : Option Path := none

namespace Manifest

def fileName : Text := "blox.toml"

/-! ## Time limits -/

inductive TimeoutFlaw where
  | unreadable (f : Duration.Flaw)
  | negative (d : Duration)
  deriving DecidableEq

def TimeoutFlaw.message : TimeoutFlaw → Text
  | .unreadable f => "engine timeout: " ++ f.message
  | .negative d => "engine timeout: negative duration " ++ d.toText

def timeoutOf (t : Text) : Except TimeoutFlaw Duration :=
  if t.isEmpty then .ok 0
  else
    match Duration.ofText t with
    | .error f => .error (.unreadable f)
    | .ok d => if d < 0 then .error (.negative d) else .ok d

def timeout (m : Manifest) : Except TimeoutFlaw Duration := timeoutOf m.timeoutText

/-- The log file, from the manifest's own directory on if it is not absolute; empty for none. -/
def logPath (m : Manifest) : Text :=
  if m.path.isEmpty || Path.isAbsolute m.path then m.path
  else ((m.directory.getD .root).resolve m.path).toText

/-! ## Settings -/

structure Settings where
  name : Text := []
  operands : Int := 0
  control : Int := 0
  bindings : Int := 0
  calls : Int := 0
  timeout : Text := []
  verbosity : Int := 0
  path : Text := []

abbrev Setter := Toml.Node → Settings → Option Settings

def ofText (f : Text → Settings → Settings) : Setter
  | .scalar (.text t), s => some (f t s)
  | _, _ => none

def ofInteger (f : Int → Settings → Settings) : Setter
  | .scalar (.integer n), s => some (f n s)
  | _, _ => none

def sections : Table (Table Setter) :=
  [("program", [("name", ofText fun t s => { s with name := t })]),
    ("engine",
      [("operand-stack", ofInteger fun n s => { s with operands := n }),
        ("control-stack", ofInteger fun n s => { s with control := n }),
        ("variable-stack", ofInteger fun n s => { s with bindings := n }),
        ("call-stack", ofInteger fun n s => { s with calls := n }),
        ("timeout", ofText fun t s => { s with timeout := t })]),
    ("log",
      [("verbosity", ofInteger fun n s => { s with verbosity := n }),
        ("path", ofText fun t s => { s with path := t })])]

/-- The letters of a key in lower case. Two letters outside of ASCII have an ASCII letter as
    their lower case: the long s and the Kelvin sign. -/
def folded : Text → Text
  | 0xC5 :: 0xBF :: rest => Text.byte 's' :: folded rest
  | 0xE2 :: 0x84 :: 0xAA :: rest => Text.byte 'k' :: folded rest
  | b :: rest => Text.lower [b] ++ folded rest
  | [] => []

def named? {α : Type} (t : Table α) (key : Text) : Option α := t.get? (folded key)

abbrev Findings := Settings × List Toml.Key

def takeSection (key : Text) (setters : Table Setter) : Table Toml.Node → Findings → Option Findings
  | [], r => some r
  | (k, n) :: rest, (s, known) =>
    match named? setters k with
    | none => takeSection key setters rest (s, known)
    | some set => do
      let s ← set n s
      takeSection key setters rest (s, [key, k] :: known)

def takeSections : Table Toml.Node → Findings → Option Findings
  | [], r => some r
  | (k, n) :: rest, (s, known) =>
    match named? sections k, n with
    | none, _ => takeSections rest (s, known)
    | some setters, .table t => do
      let r ← takeSection k setters t (s, [k] :: known)
      takeSections rest r
    | some _, _ => none

def ofSettings (dir : Path) (s : Settings) : Manifest :=
  { name := if s.name.isEmpty then ({} : Manifest).name else s.name
    limits := .ofAsked s.operands s.control s.bindings s.calls
    timeoutText := s.timeout
    verbosity := s.verbosity
    path := s.path
    directory := some dir }

/-! ## Loading -/

inductive Flaw where
  | unopened (o : Tree.Obstacle)
  /-- The file is no document, or a value is of the wrong type. -/
  | malformed
  | unknownKey (key : Toml.Key)
  | badTimeout (f : TimeoutFlaw)

structure LoadError where
  /-- The file. -/
  path : Path
  flaw : Flaw

def LoadError.message (e : LoadError) : Text :=
  let path := e.path.toText
  path ++ ": " ++ match e.flaw with
    | .unopened .directory => "read " ++ path ++ ": " ++ Tree.Obstacle.directory.message
    | .unopened o => "open " ++ path ++ ": " ++ o.message
    | .malformed => "toml: malformed document"
    | .unknownKey k => "unknown key " ++ k.toText.quoted
    | .badTimeout f => f.message

def ofContent (dir : Path) (content : Text) : Except Flaw Manifest := do
  let some doc := Toml.Document.ofText content | .error .malformed
  let some (settings, known) := takeSections doc.root ({}, []) | .error .malformed
  if let some k := doc.keys.find? (!known.contains ·) then .error (.unknownKey k)
  match timeoutOf settings.timeout with
  | .error f => .error (.badTimeout f)
  | .ok _ => .ok (ofSettings dir settings)

def load (t : Tree) (dir : Path) : Except LoadError Manifest :=
  let path := dir.child fileName
  let result := match t.entry path with
    | .file content => ofContent dir content
    | .directory => .error (.unopened .directory)
    | .missing => .error (.unopened .missing)
    | .blocked => .error (.unopened .notDirectory)
  match result with
  | .ok m => .ok m
  | .error f => .error ⟨path, f⟩

def holds (t : Tree) (dir : Path) : Bool := t.entry (dir.child fileName) matches .file _

/-- The innermost directory on the way up that holds a manifest. -/
def locate? (t : Tree) : (names : List Text) → Option Path
  | [] => if holds t .root then some .root else none
  | name :: up => if holds t ⟨name :: up⟩ then some ⟨name :: up⟩ else locate? t up

/-- Loads the manifest of a directory or of the nearest one above it that has one. -/
def find (t : Tree) (dir : Path) : Except LoadError (Option Manifest) :=
  match locate? t dir.names with
  | none => .ok none
  | some d => (load t d).map some

end Manifest

end BlockEngine.Config
