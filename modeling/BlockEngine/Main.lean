/-
  BlockEngine.Main — the command line program.

  Reads the manifests above the working directory and the one that the search may start from,
  makes the plan, opens the log file and carries the plan out.
-/

import BlockEngine.Cli.Command

namespace BlockEngine.Cli

def systemName (path : Text) : String := (String.fromUTF8? ⟨path.toArray⟩).getD ""

def readManifest (dir : Config.Path) : IO (List (Config.Path × Text)) := do
  let file := dir.child Config.Manifest.fileName
  try
    let bytes ← IO.FS.readBinFile (systemName file.toText)
    return [(file, bytes.toList)]
  catch _ => return []

def readManifests : (names : List Text) → IO (List (Config.Path × Text))
  | [] => readManifest .root
  | name :: up => do
    let here ← readManifest ⟨name :: up⟩
    return here ++ (← readManifests up)

def reason : IO.Error → Text
  | .noFileOrDirectory .. => Config.Tree.Obstacle.missing.message
  | .inappropriateType .. => Config.Tree.Obstacle.directory.message
  | e => Text.ofString (toString e)

def openLog (path : Text) : IO (Option Report) := do
  try
    let _ ← IO.FS.Handle.mk (systemName path) .append
    return none
  catch e => return some (.noLog path (reason e))

def perform (p : Plan) : IO Report := do
  match p.logFile with
  | none => return p.carryOut
  | some path =>
    match ← openLog path with
    | some r => return r
    | none => return p.carryOut

end BlockEngine.Cli

open BlockEngine BlockEngine.Cli in
def main (args : List String) : IO UInt32 := do
  let args := args.map Text.ofString
  let cwd := Config.Path.root.resolve (Text.ofString (← IO.currentDir).toString)
  let start := match Options.parse {} args with
    | .ok o => cwd.resolve o.directory
    | .error _ => cwd
  let files ← readManifests start.names
  let report ← match Plan.ofArguments args { files := files } cwd with
    | .error r => pure r
    | .ok p => perform p
  (← IO.getStdout).write ⟨report.out.toArray⟩
  (← IO.getStderr).write ⟨report.err.toArray⟩
  return report.code.toUInt32
