import Layering.Cli.Run

/-!
# The command line

Reads the files that a run may look at, runs the command and writes what it leaves. All decisions are
made by `Cli.run`, which is a function of the files, the arguments and the surroundings.
-/

namespace Layering.Main

open Cli

/-- Reads a file or a directory; what is neither is passed over. -/
partial def readTree (path : String) : IO (Option Tree) := do
  let names? ← try
      let found ← (← IO.FS.realPath path).readDir
      pure (some (found.toList.map (·.fileName)))
    catch _ => pure none
  match names? with
  | some names =>
    let children ← names.filterMapM fun n => do
      return (← readTree (path ++ "/" ++ n)).map (n, ·)
    return some (.dir children)
  | none =>
    try
      return some (.file (String.fromUTF8? (← IO.FS.readBinFile path)))
    catch _ => return none

/-- The names that lead to an absolute path. -/
def namesOf (path : String) : List String := (Path.parse path).names

/-- The working directory with what is below it, and every place outside that an argument names. -/
def readFiles (args : List String) : IO FileSystem := do
  let here := (← IO.currentDir).toString
  let mut fs : FileSystem := ⟨.dir [], namesOf here⟩
  for place in here :: args do
    let real ← try pure (← IO.FS.realPath place).toString catch _ => pure ""
    unless real.isEmpty || (fs.find? (.parse real)).isSome do
      if let some tree ← readTree real then
        fs := { fs with root := FileSystem.setAt tree fs.root (namesOf real) }
  return fs

/-- Writes the files that a run has changed. -/
def writeChanges (before after : FileSystem) : IO Unit := do
  for (names, text) in before.changes after ⟨1, []⟩ do
    IO.FS.createDirAll ("/" ++ "/".intercalate names.dropLast)
    IO.FS.writeFile ("/" ++ "/".intercalate names) (text.getD "")

/-- The time now: that of a file which is made for the purpose. -/
def now : IO Timestamp := do
  try
    let (_, path) ← IO.FS.createTempFile
    let time := (← path.metadata).modified
    IO.FS.removeFile path
    return .ofEpoch time.sec.toNat (time.nsec.toNat / 1000)
  catch _ => return .ofEpoch 0 0

/-- Prints a table, one row a line. -/
def printTable (title : String) (columns : List Column) (rows : List (List String)) : IO Unit := do
  IO.println title
  IO.println ("  ".intercalate (columns.map (·.header)))
  for row in rows do
    IO.println ("  ".intercalate row)

/-- Runs the program on the files of the machine and gives its exit code. -/
def execute (args : List String) : IO UInt32 := do
  let start ← IO.monoMsNow
  let fs ← readFiles args
  let plain := (← IO.getEnv "CI") == some "true" || !(← (← IO.getStdout).isTty)
  let elapsed : Elapsed := .exact (.ofRatio false ((← IO.monoMsNow) - start) 1000)
  let r := run ⟨plain, elapsed, ← now⟩ fs args
  writeChanges fs r.files
  r.stdout.forM IO.println
  for d in r.display do
    match d with
    | .text s => IO.println s
    | .table title columns rows => printTable title columns rows
  r.stderr.forM IO.eprintln
  match r.ending with
  | .exit code => return code.toUInt32
  | .usage e =>
    IO.eprintln s!"Error: {e.message}"
    return 2
  | .crash _ =>
    IO.eprintln "Error: the run ended unexpectedly"
    return 1

end Layering.Main

/-- The program. -/
def main (args : List String) : IO UInt32 := Layering.Main.execute args
