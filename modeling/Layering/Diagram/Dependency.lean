import Layering.Diagram.Architecture

/-!
# The dependency diagram

The dependencies between components, and the packages from outside that they import. Each line is drawn
once.
-/

namespace Layering.Diagram

/-- The package that an import path belongs to: its first part, or the first two when they make up a
scoped name. -/
def packageOf (path : String) : String :=
  let parts := PathText.segments path.toList
  String.ofList (
    if path.toList.head? == some '@' && 1 < parts.length then PathText.ofSegments (parts.take 2)
    else parts.headD [])

namespace Dependency

/-- The style of a package. -/
def packageStyle : String := "fill:#f59e0b,color:#fff"

/-- The packages that a component imports. -/
def packages (c : Component) : List String :=
  ((c.imports.filter fun i => i.path.toList.head? != some '.').map fun i => packageOf i.path).filter
    (· ≠ "")

/-- The line of an import of a package. -/
def packageLine (c : Component) (package : String) : String :=
  let id := nodeId package
  let text := escapeLabel package
  s!"  {id}[\"{text}\"] --> {nodeId c.name}"

/-- The lines of a component. -/
def componentLines (names : List String) (c : Component) : List String :=
  (packages c).map (packageLine c) ++ Architecture.edgeLines names c

/-- The line that colours a package. -/
def styleLine (package : String) : String := s!"  style {nodeId package} {packageStyle}"

/-- The names whose identifiers the lines of a component show. -/
def namesOf (names : List String) (c : Component) : List String :=
  (packages c).flatMap (fun package => [package, c.name]) ++
  (c.dependencies.filter names.contains).flatMap fun name => [c.name, name]

/-- The names whose identifiers the diagram shows. -/
def names (graph : Graph) (focus : Option String) : List String :=
  let components := inFocus graph focus
  components.flatMap (namesOf (components.map (·.name)))

/-- The lines of the diagram. -/
def lines (graph : Graph) (focus : Option String) : List String :=
  match inFocus graph focus with
  | [] => ["graph LR", "  Note[\"No components found\"]"]
  | components =>
    let names := components.map (·.name)
    ["graph LR"] ++
    (components.flatMap (componentLines names)).eraseDups ++
    (components.flatMap packages).eraseDups.map styleLine

end Dependency

end Layering.Diagram
