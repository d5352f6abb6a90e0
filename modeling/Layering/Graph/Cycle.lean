import Layering.Graph.Basic

/-!
# Dependency cycles

Cycles are found by a depth-first search with three marks. A configuration of the search holds a stack
of frames, each with the dependencies of its name that are still to be looked at, the path of the
names that are being visited, and the marks; one step looks at the top frame. An arrow that leads back
to a name on the path closes a cycle, and a cycle is reported once, whatever its starting point.

A search that goes deeper than the limit is given up: the names on its path count as done.
-/

namespace Layering

/-- The number of frames that a search may hold. -/
def maxCycleDepth : Nat := 1000

namespace Cycle

/-! ## Keys -/

/-- The least of the nodes. -/
def least? : List String → Option String
  | [] => none
  | n :: ns => some (ns.foldl (fun m k => if k < m then k else m) n)

/-- The nodes from the first least one on, followed by those before it. -/
def rotateToLeast (nodes : List String) : List String :=
  match least? nodes with
  | none => []
  | some least => nodes.dropWhile (· ≠ least) ++ nodes.takeWhile (· ≠ least)

/-- The key of a cycle, which is given as its nodes followed by the first again: the nodes from the
least one on, with arrows between them. -/
def key (cycle : List String) : String := "->".intercalate (rotateToLeast cycle.dropLast)

/-! ## The search -/

/-- How far the search has come with a name. -/
inductive Mark where
  | unvisited
  | visiting
  | done
deriving DecidableEq, Repr

/-- A name and those of its dependencies that are still to be looked at. -/
structure Frame where
  name : String
  pending : List String
deriving DecidableEq, Repr

/-- A configuration of the search. -/
structure Traversal where
  /-- The frames, the latest first. -/
  stack : List Frame
  /-- The names that are being visited, the latest last. -/
  path : List String
  /-- The marks that were set, the latest first. -/
  marks : List (String × Mark)
  /-- The cycles that were found, the latest last. -/
  cycles : List (List String)
  /-- Whether the search was given up. -/
  abandoned : Bool
deriving DecidableEq, Repr

namespace Traversal

/-- The mark of a name. -/
def mark (s : Traversal) (name : String) : Mark := (s.marks.lookup name).getD .unvisited

/-- Sets the mark of a name. -/
def setMark (s : Traversal) (name : String) (m : Mark) : Traversal :=
  { s with marks := (name, m) :: s.marks }

/-- Starts the visit of a name, unless it was started before. -/
def enter (s : Traversal) (name : String) : Traversal :=
  if s.mark name = .unvisited then { s.setMark name .visiting with path := s.path ++ [name] } else s

/-- Whether a cycle was reported, from whatever starting point. -/
def knows (s : Traversal) (cycle : List String) : Bool := (s.cycles.map key).contains (key cycle)

/-- Reports the cycle that an arrow back to a name on the path closes. -/
def report (s : Traversal) (name : String) : Traversal :=
  let cycle := s.path.dropWhile (· ≠ name) ++ [name]
  if s.knows cycle then s else { s with cycles := s.cycles ++ [cycle] }

/-- Gives the search up: the names on the path count as done. -/
def abandon (s : Traversal) : Traversal :=
  { s with
    stack := []
    marks := (s.path.map (·, .done)).reverse ++ s.marks
    abandoned := true }

end Traversal

end Cycle

namespace Graph

open Layering.Cycle

/-- The names that a name depends on. -/
def dependencyNames (g : Graph) (name : String) : List String :=
  (g.dependencies name).map (·.name)

/-- Looks at the dependency `dep` of the top frame, the rest of its frame being put back already. -/
def follow (g : Graph) (s : Traversal) (dep : String) : Traversal :=
  if (g.component? dep).isNone then s
  else match s.mark dep with
    | .unvisited => { s with stack := ⟨dep, g.dependencyNames dep⟩ :: s.stack }
    | .visiting => if s.path.contains dep then s.report dep else s
    | .done => s

/-- One step of the search. -/
def step (g : Graph) (s : Traversal) : Traversal :=
  match s.stack with
  | [] => s
  | frame :: below =>
    if maxCycleDepth < s.stack.length then s.abandon
    else
      let s := s.enter frame.name
      match frame.pending with
      | [] => { s.setMark frame.name .done with stack := below, path := s.path.dropLast }
      | dep :: rest => g.follow { s with stack := ⟨frame.name, rest⟩ :: below } dep

/-- Runs the search until its stack is empty, for at most `fuel` steps. -/
def run (g : Graph) : (fuel : Nat) → Traversal → Traversal
  | 0, s => s
  | fuel + 1, s => if s.stack.isEmpty then s else g.run fuel (g.step s)

/-- A number of steps that is enough for any search: each frame is pushed once, each of its
dependencies is looked at once, and it is popped once. -/
def stepBound (g : Graph) : Nat :=
  g.components.length + (g.components.flatMap (·.dependencies)).length + 1

/-- The state of a search between two starts: its marks, the cycles found, and the number of starts
that were given up. -/
structure Survey where
  marks : List (String × Mark)
  cycles : List (List String)
  abandoned : Nat

/-- The configuration in which the search from a start begins. -/
def startAt (g : Graph) (survey : Survey) (start : String) : Traversal :=
  ⟨[⟨start, g.dependencyNames start⟩], [], survey.marks, survey.cycles, false⟩

/-- The search from one start, unless it has no name or is done. -/
def visit (g : Graph) (survey : Survey) (start : String) : Survey :=
  if start = "" ∨ (survey.marks.lookup start).getD .unvisited = .done then survey
  else
    let s := g.run g.stepBound (g.startAt survey start)
    ⟨s.marks, s.cycles, if s.abandoned then survey.abandoned + 1 else survey.abandoned⟩

/-- The search from every component, in order. -/
def survey (g : Graph) : Survey :=
  (g.components.map (·.name)).foldl g.visit ⟨[], [], 0⟩

/-- The dependency cycles of a graph, each with its first node repeated at its end, and a warning for
each search that was given up. -/
def cycles (g : Graph) : List (List String) × List Notice :=
  let s := g.survey
  (s.cycles, List.replicate s.abandoned (.depthExceeded maxCycleDepth))

end Graph

end Layering
