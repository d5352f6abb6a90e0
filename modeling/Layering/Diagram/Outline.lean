import Layering.Diagram.Architecture

/-!
# Short diagrams

Diagrams of a few components only: the services in a row, the classes with their first dependencies, and
the first components as the steps of a flow.
-/

namespace Layering.Diagram

/-- The number of services in a sequence diagram. -/
def maxParticipants : Nat := 6

/-- The number of classes in a class diagram. -/
def maxClasses : Nat := 20

/-- The number of dependencies of a class that count. -/
def maxClassEdges : Nat := 3

/-- The number of steps in a flow diagram. -/
def maxSteps : Nat := 8

/-- The components of a sequence diagram: services and the files that everything starts with. -/
def participants (graph : Graph) : List Component :=
  (graph.components.filter fun c => c.kind = "service" || c.shownName = "index").take maxParticipants

/-- The components of a class diagram. -/
def classes (graph : Graph) : List Component :=
  (graph.components.filter fun c => c.kind = "class" || c.kind = "component").take maxClasses

/-- The components of a flow diagram. -/
def steps (graph : Graph) : List Component := graph.components.take maxSteps

/-- The lines of the sequence diagram: each service calls the next. -/
def sequenceLines (graph : Graph) : List String :=
  match participants graph with
  | [] => ["sequenceDiagram", "  Note over User,App: No services detected"]
  | services =>
    let ids := services.map fun c => nodeId c.name
    ["sequenceDiagram"] ++
    services.map (fun c => s!"  participant {nodeId c.name} as {label c}") ++
    (ids.zip ids.tail).map fun (caller, callee) => s!"  {caller}->>{callee}: calls"

/-- The lines of the class diagram. -/
def classLines (graph : Graph) : List String :=
  match classes graph with
  | [] => ["classDiagram", "  note \"No classes found\""]
  | classes =>
    let names := classes.map (·.name)
    ["classDiagram"] ++
    classes.flatMap (fun c =>
      [s!"  class {nodeId c.name} \x7b", s!"    +{escapeLabel c.filePath}", "  \x7d"]) ++
    classes.flatMap fun c =>
      ((c.dependencies.take maxClassEdges).filter names.contains).map
        (Architecture.edgeLine c.name)

/-- The lines of the steps of a flow after a node. -/
def stepLines (before : String) : List Component → List String
  | [] => ["  End([\"End\"])", s!"  {before} --> End"]
  | c :: cs =>
    let id := nodeId c.name
    let text := label c
    s!"  {id}[\"{text}\"]" :: s!"  {before} --> {id}" :: stepLines id cs

/-- The lines of the flow diagram. -/
def flowLines (graph : Graph) : List String :=
  "flowchart TD" :: "  Start([\"Start\"])" :: stepLines "Start" (steps graph)

end Layering.Diagram
