import Layering.Glob.Basic
import Layering.Graph.Component
import Layering.Notice

/-!
# The component graph

A list of components with its look-ups. A name stands for the first component that has it and a path
for the last; components without a name or without a path are found by neither. An arrow of the graph
leads from a name to each name among the dependencies of its component that stands for a component.
-/

namespace Layering

/-- The number of components that a graph holds at most. -/
def maxComponents : Nat := 10000

/-- Components, and what an analysis says about them as a whole. -/
structure Graph where
  components : List Component
  rootPath : String
  languages : List (Scalar × Value)
  directories : List Value

/-- Why a value gives no graph. -/
inductive GraphError where
  | notARecord
deriving DecidableEq, Repr

/-- The text of the refusal. -/
def GraphError.message : GraphError → String
  | notARecord => "analysis must be an object with a 'components' list"

namespace Graph

/-! ## Construction -/

/-- The names that occur again in a list, at each place where they do. -/
def repeatedNames (seen : List String) : List String → List String
  | [] => []
  | n :: ns => if seen.contains n then n :: repeatedNames seen ns else repeatedNames (n :: seen) ns

/-- A graph of components, cut off at the limit. -/
def build (components : List Component) (rootPath : String) (languages : List (Scalar × Value))
    (directories : List Value) : Graph × List Notice :=
  let kept := components.take maxComponents
  let excess := if maxComponents < components.length
    then [Notice.componentLimit maxComponents components.length] else []
  let names := (kept.map (·.name)).filter (· ≠ "")
  (⟨kept, rootPath, languages, directories⟩,
    excess ++ (repeatedNames [] names).map Notice.duplicateComponent)

/-- The components among the items of a list; other items are dropped. -/
def componentsOf : List Value → List Component × List Notice
  | [] => ([], [])
  | item :: rest =>
    let (cs, ns) := componentsOf rest
    match item with
    | .map entries => (Component.ofEntries entries :: cs, ns)
    | _ => (cs, .malformedComponent item :: ns)

/-- The graph that a value describes: a list of component records, or a record with such a list. -/
def ofValue : Value → Except GraphError (Graph × List Notice)
  | .scalar _ | .set _ => .error .notARecord
  | .list items =>
    let (cs, dropped) := componentsOf items
    let (g, notices) := build cs "" [] []
    .ok (g, dropped ++ notices)
  | .map entries =>
    let (cs, dropped) := componentsOf ((Entries.field "components" entries).items?.getD [])
    let root := Component.either entries "rootPath" "root_path"
    let (g, notices) := build cs (if root.isTruthy then root.shownText else "")
      ((Entries.field "languages" entries).entries?.getD [])
      ((Entries.field "directories" entries).items?.getD [])
    .ok (g, dropped ++ notices)

/-! ## Look-ups -/

/-- The component that a name stands for. -/
def component? (g : Graph) (name : String) : Option Component :=
  if name = "" then none else g.components.find? (·.name == name)

/-- The component that a path stands for. -/
def componentAt? (g : Graph) (path : String) : Option Component :=
  if path = "" then none else g.components.reverse.find? (·.filePath == path)

/-- The components that a name depends on; names that stand for nothing are dropped. -/
def dependencies (g : Graph) (name : String) : List Component :=
  match g.component? name with
  | some c => c.dependencies.filterMap g.component?
  | none => []

/-- The names of the components that list a name among their dependencies, each once. -/
def dependentNames (g : Graph) (name : String) : List String :=
  ((g.components.filter (·.dependencies.contains name)).map (·.name)).eraseDups

/-- The components that list a name among their dependencies. -/
def dependents (g : Graph) (name : String) : List Component :=
  (g.dependentNames name).filterMap g.component?

/-- The components whose path passes one of the tests. A test that gives no answer is passed by no
path. -/
def inLayer (g : Graph) (tests : List (List Char → Option Bool)) : List Component :=
  g.components.filter fun c =>
    c.filePath ≠ "" && tests.any fun t => (t c.filePath.toList).getD false

/-- The components whose path matches one of the patterns. -/
def matching (g : Graph) (globs : List Glob) : List Component :=
  g.inLayer (globs.map fun p path => some (p.test path))

end Graph

end Layering
