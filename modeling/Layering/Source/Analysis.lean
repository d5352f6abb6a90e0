import Layering.Graph.Basic
import Layering.Source.Discovery
import Layering.Source.Imports
import Layering.Source.Resolve
import Layering.Text.Number

/-!
# Analysis of a project

The source files of a project become components: each gets a name of its own, its kind and its imports,
and depends on the components that its relative imports lead to. Files at the top have a path that starts
with `./`.
-/

namespace Layering

/-- Why a project cannot be analyzed. -/
inductive AnalysisError where
  | search (e : SearchError)
  /-- The limit on files is infinite. -/
  | infiniteLimit
deriving DecidableEq, Repr

/-- What is known about a project. -/
structure Analysis where
  rootPath : String
  components : List Component
  entryPoints : List String
  /-- The number of files in each language, in the order of their first files. -/
  languages : List (String × Nat)
  directories : List String

namespace Analysis

/-- The number of files that are analyzed unless another is given. -/
def defaultLimit : Nat := 100

/-- The limit on files that a value gives: an integer, or a text, a number or bytes that can be read as one;
any other value, and a number out of range, gives the usual limit. -/
def limitOf (v : Value) : Except AnalysisError Nat :=
  let clamp (n : Int) : Nat := if 1 ≤ n ∧ n ≤ maxComponents then n.toNat else defaultLimit
  match v with
  | .int n => .ok (clamp n)
  | .bool b => .ok (clamp (if b then 1 else 0))
  | .real (.infinite _) => .error .infiniteLimit
  | .real x => .ok ((x.truncate?.map clamp).getD defaultLimit)
  | .str s => .ok (((Text.integer? 10 s.toList).map clamp).getD defaultLimit)
  | .scalar (.bytes bs) =>
    .ok ((((Text.ascii? bs).bind (Text.integer? 10)).map clamp).getD defaultLimit)
  | _ => .ok defaultLimit

/-- A name that is not taken: the base itself, or the base with the least number that makes it new. -/
def freshName (taken : List String) (base : String) : String :=
  if taken.contains base then
    (((List.range taken.length).map fun k => s!"{base}_{k + 1}").find? fun n =>
      !taken.contains n).getD base
  else base

/-- A source file that has been read. -/
structure Draft where
  component : Component
  language : Language

/-- The component of a file, before its dependencies are known. -/
def draftOf (taken : List String) (names : List String) (text : String) : Draft :=
  let file : Path := ⟨0, names⟩
  let language := Language.ofPath file.name
  let relative := Source.relativeText names
  let directory := String.ofList (PathText.directory relative.toList)
  let path := if directory = "" then "./" ++ relative else relative
  { component := {
      name := freshName taken file.stem
      originalName := file.stem
      filePath := path
      directory := if directory = "" then "." else directory
      kind := Source.kindOf path text
      imports := Source.imports language text
      dependencies := [] }
    language := language }

/-- Reads files one after the other; those that cannot be read are passed over. -/
def readAll (fs : FileSystem) (root : Path) (taken : List String) :
    List (List String) → List Draft × List Notice
  | [] => ([], [])
  | names :: rest =>
    let file := root.append ⟨0, names⟩
    match fs.text? file with
    | none =>
      let (drafts, notices) := readAll fs root taken rest
      (drafts, .unreadable file.text :: notices)
    | some text =>
      let draft := draftOf taken names text
      let (drafts, notices) := readAll fs root (draft.component.name :: taken) rest
      (draft :: drafts, notices)

/-- The path of a component without detours. -/
def plainPath (c : Component) : String := String.ofList (PathText.normal c.filePath.toList)

/-- The component of a draft, with the components that its relative imports lead to. -/
def link (known : Source.Known) (d : Draft) : Component :=
  let c := d.component
  let relative := c.imports.filter fun i => i.path.toList.head? == some '.'
  let source := plainPath c
  { c with
    dependencies := relative.filterMap fun i => Source.resolve d.language known source i.path }

/-- Counts how often each name occurs, in the order of first occurrence. -/
def tally (names : List String) : List (String × Nat) :=
  names.eraseDups.map fun n => (n, names.count n)

/-- The analysis of the files that have been read. -/
def ofDrafts (root : Path) (drafts : List Draft) : Analysis :=
  let components := drafts.map (·.component)
  let known := (components.map fun c => (plainPath c, c.name)).reverse
  { rootPath := root.text
    components := drafts.map (link known)
    entryPoints := (components.map (·.filePath)).filter Source.isEntryPoint
    languages := tally (drafts.map (·.language.name))
    directories := (((components.map (·.directory)).filter (· ≠ ".")).mergeSort
      Text.precedes).eraseReps }

/-- Analyzes the project in a directory. -/
def run (fs : FileSystem) (root : Path) (patterns exclude : Option (List String)) (limit : Value) :
    Except AnalysisError Analysis × List Notice :=
  let chosen := match patterns with
    | some (p :: ps) => p :: ps
    | _ => Source.defaultPatterns
  match limitOf limit with
  | .error e => (.error e, [])
  | .ok limit =>
    match Source.discover fs root chosen (exclude.getD Source.defaultExclude) with
    | (.error e, notices) => (.error (.search e), notices)
    | (.ok files, notices) =>
      let (drafts, unreadable) := readAll fs root [] (files.take limit)
      let analysis := ofDrafts root drafts
      (.ok analysis, notices ++ unreadable ++
        [.analyzed analysis.components.length analysis.rootPath])

/-- The languages as a record. -/
def languageEntries (a : Analysis) : List (Scalar × Value) :=
  a.languages.map fun (n, k) => (.text n, .int k)

/-- The graph of the components. -/
def graph (a : Analysis) : Graph × List Notice :=
  Graph.build a.components a.rootPath a.languageEntries (a.directories.map .str)

/-- The fields of the record of an analysis. -/
def fields (a : Analysis) : List (String × Value) :=
  [("rootPath", .str a.rootPath),
   ("components", .list (a.components.map Component.value)),
   ("entryPoints", .list (a.entryPoints.map .str)),
   ("languages", .map a.languageEntries),
   ("directories", .list (a.directories.map .str))]

end Analysis

end Layering
