import Layering.Files.Search
import Layering.Glob.Basic
import Layering.Notice
import Layering.Text.Blank

/-!
# Source files of a project

The files that some pattern finds and no other pattern leaves out, each once, in the order of their names.
-/

namespace Layering.Source

open Text

/-- The patterns of source files. -/
def defaultPatterns : List String :=
  ["**/*.ts", "**/*.tsx", "**/*.js", "**/*.jsx", "**/*.py", "**/*.go", "**/*.rs"]

/-- The patterns of files that are left out. -/
def defaultExclude : List String :=
  ["node_modules/**", ".git/**", "dist/**", "build/**", "**/*.test.*", "**/*.spec.*"]

/-- A text without the blanks around it. -/
def trimmed (s : String) : String := String.ofList (trim s.toList)

/-- The path from the root of the project with these names. -/
def relativeText (names : List String) : String := "/".intercalate names

/-- The files that one pattern finds. Of a pattern that cannot be used there is only a notice. -/
def matchesOf (fs : FileSystem) (root : Path) (pattern : String) :
    Except SearchError (List (List String)) × List Notice :=
  if trimmed pattern = "" then (.ok [], [])
  else
    match Search.parse (trimmed pattern) with
    | .ok search => (search.files fs root, [])
    | .error .unusable => (.ok [], [.invalidPattern pattern])
    | .error e => (.error e, [])

/-- The files that patterns find one after the other, up to the first that stops the search. -/
def matchesOfAll (fs : FileSystem) (root : Path) :
    List String → Except SearchError (List (List String)) × List Notice
  | [] => (.ok [], [])
  | p :: ps =>
    match matchesOf fs root p with
    | (.error e, notices) => (.error e, notices)
    | (.ok files, notices) =>
      let (more, others) := matchesOfAll fs root ps
      (more.map (files ++ ·), notices ++ others)

/-- The files that are kept: those that no pattern leaves out, each once and in order. -/
def select (exclude : List String) (found : List (List String)) : List (List String) :=
  let left := ((exclude.map trimmed).filter (· ≠ "")).map fun p => Glob.compile true p.toList
  let kept := found.filter fun names => !left.any (·.test (relativeText names).toList)
  (kept.mergeSort Path.namesPrecede).eraseReps

/-- The source files under a directory, as names from there. -/
def discover (fs : FileSystem) (root : Path) (patterns exclude : List String) :
    Except SearchError (List (List String)) × List Notice :=
  let (found, notices) := matchesOfAll fs root patterns
  (found.map (select exclude), notices)

end Layering.Source
