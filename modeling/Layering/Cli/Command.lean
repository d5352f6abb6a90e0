import Layering.Cli.Arguments
import Layering.Diagram.Basic
import Layering.Files.Tree
import Layering.Report.Format
import Layering.Source.Discovery
import Layering.Text.Number

/-!
# Commands

What a command line asks for. Paths are checked against the file system before a command runs, and words
are taken whatever the case of their letters.

The values of options are read in the order in which the options are given first, then the positional
argument, then what is not given; the first that cannot be read decides.
-/

namespace Layering.Cli

open Text

/-- Why a command line is not followed. -/
inductive Refusal where
  | usage (e : UsageError)
  /-- A path cannot even be looked up. -/
  | path (f : PathFault)
deriving DecidableEq, Repr

/-- Which files a command looks at. -/
structure Scope where
  path : Path
  patterns : Option (List String)
  exclude : Option (List String)
  maxFiles : Int

/-- A command. -/
inductive Command where
  | analyze (scope : Scope) (asJson : Bool)
  | test (scope : Scope) (config : Option Path) (format : ReportFormat) (output : Option Path)
      (dryRun : Bool)
  | generate (scope : Scope) (kind : Diagram.Kind) (focus : Option String) (theme : Diagram.Theme)
      (output : Option Path)
  | all (scope : Scope) (outputDir : Path)
  | init (path : Path) (force : Bool)

/-- What a command line asks for. -/
inductive Request where
  | help
  | version
  | command (verbose : Bool) (c : Command)

/-! ## Values of options -/

/-- What a letter becomes when case does not count, as far as that is ASCII. -/
def foldCase (c : Char) : List Char :=
  match c with
  | '\u00df' | '\u1e9e' => ['s', 's']
  | '\u017f' => ['s']
  | '\u212a' => ['k']
  | '\ufb00' => ['f', 'f']
  | '\ufb01' => ['f', 'i']
  | '\ufb02' => ['f', 'l']
  | '\ufb03' => ['f', 'f', 'i']
  | '\ufb04' => ['f', 'f', 'l']
  | '\ufb05' | '\ufb06' => ['s', 't']
  | c => [c.toLower]

/-- The one of several choices that a word names. -/
def choice {α : Type} (text : α → String) (choices : List α) (word : String) : Except Refusal α :=
  let folded := String.ofList (word.toList.flatMap foldCase)
  match choices.find? fun c => text c = folded with
  | some c => .ok c
  | none => .error (.usage (.invalidValue word))

/-- What is found at a path as it is written: an empty path and one that is too long lead nowhere, and a
slash after a file too. -/
def lookUp (fs : FileSystem) (written : String) : Except Refusal (Option Tree) :=
  let p := Path.parse written
  match p.textFault? with
  | some f => .error (.path f)
  | none =>
    if written = "" || Path.maxSize ≤ Path.byteSize written then .ok none
    else .ok ((fs.find? p).filter fun t =>
      let last := (PathText.segments written.toList).getLast?.getD []
      t.isDir || !(last = [] || last = PathText.here))

/-- A path, if what is found there satisfies a condition. -/
def pathWhere (allowed : Option Tree → Bool) (fs : FileSystem) (written : String) :
    Except Refusal Path := do
  if allowed (← lookUp fs written) then return .parse written
  else throw (.usage (.invalidPath written))

/-- A path. -/
def anyPath : FileSystem → String → Except Refusal Path := pathWhere fun _ => true

/-- The path of a directory that exists. -/
def existingDirectory : FileSystem → String → Except Refusal Path :=
  pathWhere fun t => t.any Tree.isDir

/-- The path of a file, which need not exist. -/
def filePath : FileSystem → String → Except Refusal Path := pathWhere fun t => !t.any Tree.isDir

/-- The path of a directory, which need not exist. -/
def directoryPath : FileSystem → String → Except Refusal Path :=
  pathWhere fun t => !t.any Tree.isFile

/-- The parts of a text between commas, without blanks around them; empty parts are dropped. -/
def splitCommas (s : String) : List String :=
  (((s.toList.splitOn ',').map trim).filter (· ≠ [])).map String.ofList

/-- An integer. -/
def integerValue (s : String) : Except Refusal Int :=
  match integer? 10 s.toList with
  | some n => .ok n
  | none => .error (.usage (.invalidValue s))

/-! ## Commands -/

/-- The options that say which files to look at. -/
def scopeOptions : List String := ["--patterns", "--exclude", "--max-files"]

/-- The options of all commands together. -/
def mainTable : OptionTable where
  flags := ["--verbose", "--version", "--help"]
  letters := [('v', "--verbose")]

/-- The options of a command. -/
def tableOf? (name : String) : Option OptionTable :=
  match name with
  | "analyze" => some { valued := scopeOptions, flags := ["--json", "--help"] }
  | "test" => some {
      valued := ["--config", "--format", "--output"] ++ scopeOptions
      flags := ["--dry-run", "--help"] }
  | "generate" => some {
      valued := ["--type", "--focus", "--theme", "--output"] ++ scopeOptions
      flags := ["--help"] }
  | "all" => some { valued := ["--output-dir"] ++ scopeOptions, flags := ["--help"] }
  | "init" => some { flags := ["--force", "--help"] }
  | _ => none

/-- The value of an option, read by `read`. -/
def optional {α : Type} (a : Arguments) (name : String) (read : String → Except Refusal α) :
    Except Refusal (Option α) :=
  match a.value? name with
  | some s => (read s).map some
  | none => .ok none

/-- The format of a report. -/
def formatOf (a : Arguments) : Except Refusal ReportFormat :=
  (optional a "--format" (choice ReportFormat.text ReportFormat.all)).map (·.getD .console)

/-- The kind of a diagram. -/
def kindOf (a : Arguments) : Except Refusal Diagram.Kind :=
  (optional a "--type" (choice Diagram.Kind.text Diagram.Kind.all)).map (·.getD .architecture)

/-- The theme of a diagram. -/
def themeOf (a : Arguments) : Except Refusal Diagram.Theme :=
  (optional a "--theme" (choice Diagram.Theme.text Diagram.Theme.all)).map (·.getD .default)

/-- The limit on files. -/
def maxFilesOf (a : Arguments) : Except Refusal Int :=
  (optional a "--max-files" integerValue).map (·.getD 100)

/-- Reads the value of an option to see whether it can be read. -/
def tryOption (fs : FileSystem) (a : Arguments) (name : String) : Except Refusal Unit := do
  match name with
  | "--config" => let _ ← optional a name (anyPath fs)
  | "--output" => let _ ← optional a name (filePath fs)
  | "--output-dir" => let _ ← optional a name (directoryPath fs)
  | "--format" => let _ ← formatOf a
  | "--type" => let _ ← kindOf a
  | "--theme" => let _ ← themeOf a
  | "--max-files" => let _ ← maxFilesOf a
  | _ => return

/-- The files that a command looks at. -/
def scopeOf (path : Path) (a : Arguments) : Except Refusal Scope := do
  return ⟨path, (a.value? "--patterns").map splitCommas, (a.value? "--exclude").map splitCommas,
    ← maxFilesOf a⟩

/-- The command with a name, for a directory. -/
def commandFor (fs : FileSystem) (name : String) (path : Path) (a : Arguments) :
    Except Refusal Command := do
  match name with
  | "analyze" => return .analyze (← scopeOf path a) (a.has "--json")
  | "test" =>
    return .test (← scopeOf path a) (← optional a "--config" (anyPath fs)) (← formatOf a)
      (← optional a "--output" (filePath fs)) (a.has "--dry-run")
  | "generate" =>
    return .generate (← scopeOf path a) (← kindOf a) (a.value? "--focus") (← themeOf a)
      (← optional a "--output" (filePath fs))
  | "all" =>
    return .all (← scopeOf path a) (← directoryPath fs ((a.value? "--output-dir").getD "diagrams"))
  | "init" => return .init path (a.has "--force")
  | _ => throw (.usage (.noSuchCommand name))

/-- The command with a name. An argument too many is noticed last. -/
def commandOf (fs : FileSystem) (name : String) (a : Arguments) : Except Refusal Command := do
  (a.options.map (·.1)).eraseDups.forM (tryOption fs a)
  let path ← existingDirectory fs (a.positional.headD ".")
  let command ← commandFor fs name path a
  match a.positional with
  | _ :: extra :: _ => throw (.usage (.extraArgument extra))
  | _ => return command

/-- What a command line asks for. -/
def requestOf (fs : FileSystem) (args : List String) : Except Refusal Request := do
  let main ← (splitArguments mainTable false {} args).mapError .usage
  match main.options.find? fun (n, _) => n = "--help" ∨ n = "--version" with
  | some (n, _) => return if n = "--help" then .help else .version
  | none =>
    match main.positional with
    | [] => throw (.usage .missingCommand)
    | name :: rest =>
      match tableOf? name with
      | none => throw (.usage (.noSuchCommand name))
      | some table =>
        let a ← (splitArguments table true {} rest).mapError .usage
        if a.has "--help" then return .help
        else return .command (main.has "--verbose") (← commandOf fs name a)

end Layering.Cli
