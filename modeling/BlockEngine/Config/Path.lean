/-
  BlockEngine.Config.Path — absolute paths and the tree of files below them.

  A path is the list of its names, the innermost first, so that its parent is its tail. Paths are
  resolved by their names alone: `.` and empty names vanish, `..` takes the name before it away
  and does nothing at the root.
-/

import BlockEngine.Text.Basic

namespace BlockEngine.Config

/-- An absolute path, its innermost name first. -/
structure Path where
  names : List Text := []
  deriving DecidableEq

namespace Path

def slash : UInt8 := Text.byte '/'

def root : Path := ⟨[]⟩

def child (p : Path) (name : Text) : Path := ⟨name :: p.names⟩

def step (p : Path) (name : Text) : Path :=
  if name = [] ∨ name = ("." : Text) then p
  else if name = (".." : Text) then ⟨p.names.tail⟩
  else p.child name

def split : Text → List Text
  | [] => [[]]
  | b :: rest =>
    if b = slash then [] :: split rest
    else
      match split rest with
      | [] => [[b]]
      | name :: names => (b :: name) :: names

def isAbsolute (t : Text) : Bool := t.head? == some slash

def resolve (p : Path) (t : Text) : Path :=
  (split t).foldl step (if isAbsolute t then root else p)

def toText (p : Path) : Text :=
  if p.names.isEmpty then [slash] else p.names.reverse.flatMap (slash :: ·)

end Path

inductive Entry where
  | file (content : Text)
  | directory
  | missing
  /-- A name before the last is that of a file. -/
  | blocked

/-- Files and directories. The parents of each are directories too. -/
structure Tree where
  files : List (Path × Text) := []
  directories : List Path := []

namespace Tree

/-- The path leads down to a file or directory of the tree, or is one of its directories. -/
def hasDirectory (t : Tree) (p : Path) : Bool :=
  t.directories.any (fun d => p.names.isSuffixOf d.names) ||
    t.files.any fun f => p.names.isSuffixOf f.1.names.tail

def look (t : Tree) : (names : List Text) → Entry
  | [] => .directory
  | name :: up =>
    match t.look up with
    | .directory =>
      match t.files.find? (·.1 == ⟨name :: up⟩) with
      | some (_, content) => .file content
      | none => if t.hasDirectory ⟨name :: up⟩ then .directory else .missing
    | .file _ => .blocked
    | .missing => .missing
    | .blocked => .blocked

def entry (t : Tree) (p : Path) : Entry := t.look p.names

inductive Obstacle where
  | missing
  | directory
  | notDirectory
  deriving DecidableEq

def Obstacle.message : Obstacle → Text
  | .missing => "no such file or directory"
  | .directory => "is a directory"
  | .notDirectory => "not a directory"

/-- What keeps a file from being written at a path. A file that is not there yet is made in a
    directory that is. -/
def obstacle? (t : Tree) (p : Path) : Option Obstacle :=
  match t.entry p with
  | .file _ => none
  | .directory => some .directory
  | .blocked => some .notDirectory
  | .missing =>
    match t.look p.names.tail with
    | .directory => none
    | _ => some .missing

end Tree

end BlockEngine.Config
