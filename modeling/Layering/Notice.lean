import Layering.Text.Quoted
import Layering.Value.Shown

/-!
# Notices

What a run has to say besides its result. A notice is a warning or a detail; a detail is shown only
when details are asked for, and then with the part of the program it comes from.
-/

namespace Layering

/-- Something worth telling about a run. -/
inductive Notice where
  /-- The pattern cache was full and has been emptied. -/
  | cacheCleared (limit : Int)
  /-- Components beyond the limit were left out. -/
  | componentLimit (limit received : Nat)
  /-- A component has the name of one before it. -/
  | duplicateComponent (name : String)
  /-- A search for cycles went deeper than allowed and was given up. -/
  | depthExceeded (limit : Nat)
  /-- An entry that is no component record was dropped. -/
  | malformedComponent (entry : Value)
  /-- A test of a path gave no answer. -/
  | testFailed (path : String)
  /-- The layer patterns of a rule could not be compiled. -/
  | setupFailed (rule : String)
  /-- A rule could not check a file. -/
  | checkFailed (rule path : String)
  /-- A file pattern cannot be used. -/
  | invalidPattern (pattern : String)
  /-- A source file could not be read. -/
  | unreadable (path : String)
  /-- An analysis has ended. -/
  | analyzed (count : Nat) (root : String)
  /-- A directory could not be listed. -/
  | unlistable (path : String)
  /-- A configuration takes over rules from another. -/
  | inherits (config base : String)

namespace Notice

/-- Whether a notice is a warning. -/
def isWarning : Notice → Bool
  | cacheCleared _ | componentLimit .. | duplicateComponent _ | depthExceeded _
  | invalidPattern _ => true
  | _ => false

/-- The part of the program that a notice comes from. -/
def source : Notice → String
  | cacheCleared _ => "archgate.rules.patterns"
  | componentLimit .. | duplicateComponent _ | depthExceeded _ | malformedComponent _
  | testFailed _ => "archgate.graph.component_graph"
  | setupFailed _ | checkFailed .. => "archgate.rules.engine"
  | invalidPattern _ | unreadable _ | analyzed .. => "archgate.analyzer"
  | unlistable _ | inherits .. => "archgate.rules.config"

/-- The text of a notice. -/
def message : Notice → String
  | cacheCleared limit => s!"Pattern cache exceeded {limit} entries, clearing"
  | componentLimit limit received => s!"Limiting to {limit} components (received {received})"
  | duplicateComponent name => s!"Duplicate component name {quote name}"
  | depthExceeded limit => s!"Dependency depth exceeds {limit}, possible cycle or deep graph"
  | malformedComponent entry => s!"Dropping malformed component entry: {entry.quotedText}"
  | testFailed path => s!"Matcher raised for {path}"
  | setupFailed rule => s!"Rule {quote rule} setup failed"
  | checkFailed rule path => s!"Rule {quote rule} failed on {path}"
  | invalidPattern pattern => s!"Invalid pattern: {pattern}"
  | unreadable path => s!"Skipped {path}: unreadable"
  | analyzed count root => s!"Analyzed {count} files under {root}"
  | unlistable path => s!"Cannot list {path}"
  | inherits config base => s!"Config {config} extends {base}"

/-- A notice with its level and its source. -/
def detail (n : Notice) : String :=
  let level := if n.isWarning then "WARNING" else "DEBUG"
  s!"{level} {n.source}: {n.message}"

end Notice

/-- The texts of the warnings among notices. -/
def warnings (notices : List Notice) : List String :=
  (notices.filter Notice.isWarning).map Notice.message

end Layering
