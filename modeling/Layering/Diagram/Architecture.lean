import Layering.Diagram.Label

/-!
# The architecture diagram

The components in one frame for each directory, with the dependencies between them. Services have a
shape of their own, and entry points a colour.
-/

namespace Layering.Diagram.Architecture

/-- The style of an entry point. -/
def entryStyle : String := "fill:#4f46e5,color:#fff"

/-- The directory that a component is drawn in. -/
def frameOf (c : Component) : String := if c.directory = "" then "root" else c.directory

/-- The line of a component. -/
def nodeLine (c : Component) : String :=
  let id := nodeId c.name
  let text := label c
  if c.kind = "service" then s!"    {id}[[\"{text}\"]]" else s!"    {id}[\"{text}\"]"

/-- The lines of a directory. -/
def frameLines (components : List Component) (directory : String) : List String :=
  let id := nodeId directory
  let text := escapeLabel directory
  [s!"  subgraph {id}[\"{text}\"]"] ++
  (components.filter fun c => frameOf c = directory).map nodeLine ++
  ["  end"]

/-- The line of a dependency. -/
def edgeLine (source target : String) : String := s!"  {nodeId source} --> {nodeId target}"

/-- The lines of the dependencies of a component on components with one of the names. -/
def edgeLines (names : List String) (c : Component) : List String :=
  (c.dependencies.filter names.contains).map (edgeLine c.name)

/-- The names of the components that are entry points. -/
def entryNames (graph : Graph) (names entryPoints : List String) : List String :=
  ((entryPoints.filterMap graph.componentAt?).map (·.name) |>.filter names.contains).eraseDups

/-- The line that colours an entry point. -/
def styleLine (name : String) : String := s!"  style {nodeId name} {entryStyle}"

/-- The lines of the diagram of components. -/
def linesOf (graph : Graph) (components : List Component) (entryPoints : List String) :
    List String :=
  let names := components.map (·.name)
  ["graph TD"] ++
  (components.map frameOf).eraseDups.flatMap (frameLines components) ++
  components.flatMap (edgeLines names) ++
  (entryNames graph names entryPoints).map styleLine

/-- The names whose identifiers the diagram shows: those of the frames and of the components. -/
def names (graph : Graph) (focus : Option String) : List String :=
  (inFocus graph focus).map frameOf ++ (inFocus graph focus).map (·.name)

/-- The line that takes the place of components where there are none. -/
def emptyLine (focus : Option String) : String :=
  let suffix := match focus with
    | some f => if f = "" then "" else " for focus: " ++ escapeLabel f
    | none => ""
  s!"  Note[\"No components found{suffix}\"]"

/-- The lines of the diagram. -/
def lines (graph : Graph) (focus : Option String) (entryPoints : List String) : List String :=
  match inFocus graph focus with
  | [] => ["graph TD", emptyLine focus]
  | components => linesOf graph components entryPoints

end Layering.Diagram.Architecture
