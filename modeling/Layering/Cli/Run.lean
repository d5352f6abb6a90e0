import Layering.Cli.Command
import Layering.Config.Default
import Layering.Config.File
import Layering.Diagram.Link
import Layering.Graph.Cycle
import Layering.Report.Format
import Layering.Rule.Engine
import Layering.Rule.RuleSet
import Layering.Source.Analysis

/-!
# Running a command

A command turns a file system into another and has things to say: lines on the standard output and on
the standard error, and what is laid out for a terminal. Without details, only warnings among the notices
are shown.
-/

namespace Layering.Cli

/-- The version of the program. -/
def version : String := "0.4.0"

/-- What a run depends on besides its files. -/
structure Surroundings where
  /-- Whether reports use plain signs. -/
  plain : Bool
  elapsed : Elapsed
  now : Timestamp

/-- A column of a table. -/
structure Column where
  header : String
  rightAligned : Bool := false
deriving DecidableEq, Repr

/-- Something that is laid out for a terminal; texts may hold marks for colours. -/
inductive Display where
  | text (s : String)
  | table (title : String) (columns : List Column) (rows : List (List String))
deriving DecidableEq, Repr

/-- What ends a run at an unexpected point. -/
inductive Crash where
  | analysis (e : AnalysisError)
  | scalar (f : Yaml.Fault)
  | path (f : PathFault)
  | report (e : ReportError)
  | write (e : WriteError)
  /-- A text that should be written has a lone surrogate. -/
  | unencodable
deriving DecidableEq, Repr

/-- How a run ends. -/
inductive Ending where
  | exit (code : Nat)
  | usage (e : UsageError)
  | crash (c : Crash)
deriving DecidableEq, Repr

/-- A run: how it ends, what it says and the files it leaves. -/
structure Run where
  files : FileSystem
  ending : Ending := .exit 0
  stdout : List String := []
  stderr : List String := []
  display : List Display := []

namespace Run

/-- Ends a run at an unexpected point. -/
def crash (r : Run) (c : Crash) : Run := { r with ending := .crash c }

/-- Adds a line to the standard output and goes on. -/
def tell (r : Run) (line : String) (next : Run → Run) : Run :=
  if Text.isEncodable line then next { r with stdout := r.stdout ++ [line] } else r.crash .unencodable

/-- Adds a last line to the standard output. -/
def say (r : Run) (line : String) : Run := r.tell line id

/-- Adds a line to the standard error. -/
def warn (r : Run) (line : String) : Run :=
  { r with stderr := r.stderr ++ [String.ofList (Text.escapeSurrogates line.toList)] }

/-- Adds notices to the standard error. -/
def note (r : Run) (verbose : Bool) (notices : List Notice) : Run :=
  (if verbose then notices.map Notice.detail else warnings notices).foldl warn r

/-- Lays something out for a terminal. -/
def present (r : Run) (d : Display) : Run := { r with display := r.display ++ [d] }

/-- Ends a run with an error message. -/
def fail (r : Run) (code : Nat) (message : String) : Run :=
  { r.warn s!"Error: {message}" with ending := .exit code }

end Run

/-- Analyzes the files of a scope. -/
def analysisOf (fs : FileSystem) (s : Scope) : Except AnalysisError Analysis × List Notice :=
  Analysis.run fs s.path s.patterns s.exclude (.int s.maxFiles)

/-- Goes on with the analysis of a scope. -/
def withAnalysis (verbose : Bool) (s : Scope) (r : Run) (next : Analysis → Graph → Run → Run) : Run :=
  match analysisOf r.files s with
  | (.error e, notices) => (r.note verbose notices).crash (.analysis e)
  | (.ok a, notices) =>
    let (g, more) := a.graph
    next a g (r.note verbose (notices ++ more))

/-! ## Analysis -/

/-- The table of languages. -/
def languageTable (a : Analysis) : Display :=
  let sorted := a.languages.mergeSort fun x y => Text.precedes x.1 y.1
  .table "Languages" [⟨"language", false⟩, ⟨"files", true⟩]
    (sorted.map fun (n, k) => [n, toString k])

/-- What is shown of an analysis. -/
def analysisDisplay (a : Analysis) (cycles : List (List String)) : List Display :=
  [.text s!"Components: [bold]{a.components.length}[/]"] ++
  (if a.languages.isEmpty then [] else [languageTable a]) ++
  (if a.entryPoints.isEmpty then []
   else [.text ("Entry points: " ++ ", ".intercalate a.entryPoints)]) ++
  (if cycles.isEmpty then [.text "[green]No dependency cycles[/]"]
   else .text s!"[red]{cycles.length} dependency cycle(s):[/]" ::
    cycles.map fun c => .text ("  " ++ " -> ".intercalate c))

/-- Reports components and cycles. -/
def runAnalyze (verbose : Bool) (s : Scope) (asJson : Bool) (r : Run) : Run :=
  withAnalysis verbose s r fun a g r =>
    let (cycles, notices) := g.cycles
    let r := r.note verbose notices
    if asJson then
      let record : Value :=
        .record (a.fields ++ [("cycles", .list (cycles.map fun c => .list (c.map .str)))])
      r.say (String.ofList (Json.print Json.prettyUnicode record))
    else { r with display := r.display ++ analysisDisplay a cycles }

/-! ## Validation -/

/-- The row of a preview. -/
def previewRow (p : Preview) : List String :=
  let layer := match p.layer with
    | .single (.str s) => s
    | l => ", ".intercalate (l.patterns.map Value.shownText)
  match p.error with
  | some e => [p.name, layer, "-", s!"[red]{e}[/]"]
  | none =>
    let more := p.totalFiles - p.matchedFiles.length
    let matched := "\n".intercalate p.matchedFiles ++
      (if p.truncated then s!"\n... and {more} more" else "")
    [p.name, layer, toString p.totalFiles, if matched = "" then "[yellow](none)[/]" else matched]

/-- The table of previews. -/
def previewTable (ps : List Preview) : Display :=
  .table "Dry run: layer matches" [⟨"Rule", false⟩, ⟨"Layer", false⟩, ⟨"Files", true⟩, ⟨"Matched", false⟩]
    (ps.map previewRow)

/-- Whether a fault in a scalar is reported as an error in the configuration. -/
def isConfigFault : Yaml.Fault → Bool
  | .hugeCharacter | .hugeFraction | .tooDeep | .noDigits | .noTruthValue | .noTime => false
  | _ => true

/-- Writes a file. Of a text that cannot be encoded nothing is written into the file. -/
def writeFile (r : Run) (p : Path) (text : String) (next : Run → Run) : Run :=
  let encodable := Text.isEncodable text
  match r.files.write p (if encodable then text else "") with
  | .error e => r.crash (.write e)
  | .ok fs => if encodable then next { r with files := fs } else { r with files := fs }.crash .unencodable

/-- Makes a directory, with the directories on its way, and goes on. -/
def withDirectory (r : Run) (dir : Path) (next : Run → Run) : Run :=
  match r.files.ensureDir dir with
  | .error e => r.crash (.write e)
  | .ok fs => next { r with files := fs }

/-- Writes a file, with the directories on its way. -/
def writeTo (r : Run) (p : Path) (text : String) (next : Run → Run) : Run :=
  withDirectory r p.parent fun r => writeFile r p text next

/-- Checks the files of a scope against rules. -/
def runRules (env : Surroundings) (verbose : Bool) (s : Scope) (rules : List Rule)
    (format : ReportFormat) (output : Option Path) (dryRun : Bool) (r : Run) : Run :=
  withAnalysis verbose s r fun _ g r =>
    let cache := Glob.Cache.empty Glob.defaultCacheLimit
    if dryRun then
      let (previews, _, notices) := Engine.preview g cache rules
      (r.note verbose notices).present (previewTable previews)
    else
      let (results, _, notices) := Engine.validate cache rules g
      let r := { r.note verbose notices with ending := .exit results.exitCode }
      match Report.write ⟨format, verbose, output.isSome || env.plain⟩ results env.elapsed env.now with
      | .error e => r.crash (.report e)
      | .ok report =>
        match output with
        | none => r.say report
        | some p =>
          writeTo r p report fun r => if verbose then r.say s!"Results written to {p.text}" else r

/-- Reads the rules of a configuration file and goes on with them. -/
def withRules (verbose : Bool) (config : Path) (r : Run) (next : List Rule → Run → Run) : Run :=
  let (loaded, notices) := Config.loadRules r.files config
  let r := r.note verbose notices
  match loaded with
  | .error (.invalidScalar f) =>
    if isConfigFault f then r.fail 2 f.message else r.crash (.scalar f)
  | .error e => r.fail 2 e.message
  | .ok entries =>
    match RuleSet.ofConfig (.map entries) with
    | .error e => r.fail 2 e.message
    | .ok rules => next (rules.map ImportRule.toRule) r

/-- Checks the files of a scope against the rules of a configuration. -/
def runTest (env : Surroundings) (verbose : Bool) (s : Scope) (config : Option Path)
    (format : ReportFormat) (output : Option Path) (dryRun : Bool) (r : Run) : Run :=
  let (config, notices) : Except PathFault (Option Path) × List Notice := match config with
    | some p => (.ok (some p), [])
    | none => Config.find r.files s.path
  let r := r.note verbose notices
  match config with
  | .error f => r.crash (.path f)
  | .ok none =>
    r.fail 2 s!"no architecture config found in {s.path.text} (run 'archgate init' first)"
  | .ok (some p) =>
    withRules verbose p r fun rules r => runRules env verbose s rules format output dryRun r

/-! ## Diagrams -/

/-- The suffixes of files that diagrams are written to. -/
def diagramSuffixes : List String := [".mmd", ".md"]

/-- A diagram as a part of a document. -/
def fenced (code : String) : String := "\x60\x60\x60mermaid\n" ++ code ++ "\n\x60\x60\x60"

/-- Draws a diagram and goes on with it. -/
def withDiagram (g : Graph) (kind : Diagram.Kind) (focus : Option String) (entryPoints : List String)
    (r : Run) (next : String → Run → Run) : Run :=
  match Diagram.render g kind focus entryPoints with
  | .error _ => r.crash .unencodable
  | .ok diagram => next diagram r

/-- Shows or writes a diagram. -/
def runGenerate (verbose : Bool) (s : Scope) (kind : Diagram.Kind) (focus : Option String)
    (theme : Diagram.Theme) (output : Option Path) (r : Run) : Run :=
  let suffix (p : Path) : String := String.ofList (Text.lower p.suffix.toList)
  match output.filter fun p => !diagramSuffixes.contains (suffix p) with
  | some p => r.fail 2 s!"unsupported output type {quote p.suffix} (use .mmd or .md)"
  | none =>
    withAnalysis verbose s r fun a g r =>
      withDiagram g kind focus a.entryPoints r fun diagram r =>
        let code := Diagram.withTheme theme diagram
        match output with
        | some p =>
          let text := (if suffix p = ".md" then fenced code else code) ++ "\n"
          writeTo r p text fun r => r.say s!"Diagram written to {p.text}"
        | none => r.tell (fenced code) fun r =>
          match Diagram.link? code with
          | some url => r.say s!"Preview: {url}"
          | none => r.say "Diagram too large for a preview link; use --output to save it."

/-- Writes diagrams of several kinds into a directory. -/
def writeKinds (g : Graph) (entryPoints : List String) (dir : Path) :
    List Diagram.Kind → Run → Run
  | [], r => r.say s!"Generated {Diagram.Kind.all.length} diagrams in {dir.text}"
  | kind :: kinds, r =>
    let target := dir.append ⟨0, [kind.text ++ ".mmd"]⟩
    withDiagram g kind none entryPoints r fun diagram r =>
      writeFile r target (diagram ++ "\n") fun r =>
        r.tell s!"  {kind.text}: {target.text}" (writeKinds g entryPoints dir kinds)

/-- Draws diagrams of all kinds. -/
def runAll (verbose : Bool) (s : Scope) (dir : Path) (r : Run) : Run :=
  withAnalysis verbose s r fun a g r =>
    withDirectory r dir (writeKinds g a.entryPoints dir Diagram.Kind.all)

/-! ## Start -/

/-- Writes the configuration to start with. -/
def runInit (path : Path) (force : Bool) (r : Run) : Run :=
  let target := path.append ⟨0, [".architecture.yml"]⟩
  match r.files.fault? target with
  | some f => r.crash (.path f)
  | none =>
    if (r.files.find? target).isSome && !force then
      r.fail 1 s!"{target.text} already exists (use --force to overwrite)"
    else writeFile r target Config.defaultText fun r => r.say s!"Created {target.text}"

/-- Runs a command. -/
def runCommand (env : Surroundings) (verbose : Bool) (r : Run) : Command → Run
  | .analyze s asJson => runAnalyze verbose s asJson r
  | .test s config format output dryRun => runTest env verbose s config format output dryRun r
  | .generate s kind focus theme output => runGenerate verbose s kind focus theme output r
  | .all s dir => runAll verbose s dir r
  | .init path force => runInit path force r

/-- The help text. -/
def helpText : String :=
  "Usage: archgate [OPTIONS] COMMAND [ARGS]...\n\nCommands:\n" ++
  "  all\n  analyze\n  generate\n  init\n  test"

/-- Runs the program. -/
def run (env : Surroundings) (fs : FileSystem) (args : List String) : Run :=
  let r : Run := { files := fs }
  match requestOf fs args with
  | .error (.usage e) => { r with ending := .usage e }
  | .error (.path f) => r.crash (.path f)
  | .ok .help => r.say helpText
  | .ok .version => r.say s!"archgate, version {version}"
  | .ok (.command verbose c) => runCommand env verbose r c

end Layering.Cli
