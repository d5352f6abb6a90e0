import Layering.Glob.Cache
import Layering.Report.Basic
import Layering.Rule.Basic

/-!
# Validation

Rules are run over the files of their layers. A rule whose layer cannot be compiled fails by itself,
and a file that a rule cannot check becomes a violation; neither stops the run. Compiled layer
patterns go through a cache that one run hands on to the next.
-/

namespace Layering

/-- Why a validation or a preview cannot start. -/
inductive EngineError where
  | rulesNotAList
  | notAGraph
  /-- A value of this kind has no members to go through. -/
  | notIterable (kind : String)
  /-- A member of a value is no rule. -/
  | notARule
deriving DecidableEq, Repr

/-- The text of the refusal. -/
def EngineError.message : EngineError → String
  | rulesNotAList => "rules must be a list"
  | notAGraph => "graph must be a ComponentGraph"
  | notIterable kind => s!"'{kind}' object is not iterable"
  | notARule => "not a rule"

/-- What is given as rules. -/
inductive RulesGiven where
  | rules (rs : List Rule)
  /-- A value that is no list of rules. -/
  | other (v : Value)

/-- The number of files that a preview lists. -/
def maxPreviewFiles : Nat := 100

/-- The files that the layer of a rule selects. -/
structure Preview where
  name : String
  layer : Layer
  matchedFiles : List String := []
  truncated : Bool := false
  totalFiles : Nat := 0
  error : Option String := none

namespace Engine

open Glob

/-- The options under which layer patterns are compiled. -/
def layerOptions : Value := .record [("dot", .bool true)]

/-- Compiles one layer pattern; null stands for the usual options. -/
def compilePattern (cache : Cache) (pattern options : Value) :
    Except CacheError (Lookup × Cache × List Notice) :=
  cache.get "layer pattern" pattern (if options.isNull then layerOptions else options)

theorem compilePattern_null_ne_options (cache : Cache) (pattern : Value) :
    compilePattern cache pattern .null ≠ .error .options :=
  Cache.get_ne_options (by decide : dotOption? layerOptions = some true) cache "layer pattern" pattern

/-- Compiles one layer pattern with the usual options, which are a record. -/
def compileLayerPattern (cache : Cache) (pattern : Value) :
    Except PatternError (Lookup × Cache × List Notice) :=
  match h : compilePattern cache pattern .null with
  | .error (.pattern e) => .error e
  | .error .options => absurd h (compilePattern_null_ne_options cache pattern)
  | .ok answer => .ok answer

/-- Compiles layer patterns one after the other, up to the first that is refused. -/
def compileAll (cache : Cache) :
    List Value → Except PatternError (List Glob) × Cache × List Notice
  | [] => (.ok [], cache, [])
  | p :: ps =>
    match compileLayerPattern cache p with
    | .error e => (.error e, cache, [])
    | .ok (found, cache, notices) =>
      let (rest, cache, more) := compileAll cache ps
      (rest.map (found.glob :: ·), cache, notices ++ more)

/-- Compiles the layer of a rule. -/
def compileLayer (cache : Cache) (rule : Rule) :
    Except PatternError (List Glob) × Cache × List Notice :=
  compileAll cache rule.layer.patterns

/-! ## Running rules -/

/-- The violation of a rule whose name a rule before it has. -/
def duplicateName (rule : Rule) : Violation where
  ruleName := rule.name
  message := s!"Duplicate rule name \"{rule.name}\""
  suggestion := some "Give each rule a unique name"

/-- The violation of a rule whose layer is refused. -/
def setupFailure (rule : Rule) (e : PatternError) : Violation where
  ruleName := rule.name
  message := s!"Rule setup failed: {e.message}"
  suggestion := some "Fix the layer pattern in the rule configuration"

/-- The violation of a file that a rule cannot check. -/
def checkFailure (rule : Rule) (c : Component) (reason : String) : Violation where
  ruleName := rule.name
  file := some c.filePath
  message := s!"Rule validation failed: {reason}"

/-- The violations of one file. -/
def checkFile (graph : Graph) (rule : Rule) (c : Component) : List Violation × List Notice :=
  match rule.check graph c with
  | .ok vs => (vs, [])
  | .error reason => ([checkFailure rule c reason], [.checkFailed rule.name c.filePath])

/-- The result of a rule on the files of its layer, with violations that were found before. -/
def resultOn (graph : Graph) (rule : Rule) (before : List Violation) (files : List Component) :
    RuleResult × List Notice :=
  if files.isEmpty ∧ before.isEmpty then
    ({ name := rule.name, description := rule.description, status := .skipped,
       message := some skippedMessage }, [])
  else
    let checked := files.map (checkFile graph rule)
    let vs := before ++ checked.flatMap (·.1)
    ({ name := rule.name, description := rule.description,
       status := if vs.isEmpty then .passed else .failed,
       filesChecked := files.length, violations := vs }, checked.flatMap (·.2))

/-- The result of a rule; `seen` holds what tells the rules before it apart. -/
def runRule (graph : Graph) (cache : Cache) (seen : List String) (rule : Rule) :
    RuleResult × Cache × List Notice :=
  let before := if seen.contains rule.identity then [duplicateName rule] else []
  match compileLayer cache rule with
  | (.error e, cache, notices) =>
    ({ name := rule.name, description := rule.description, status := .failed,
       violations := before ++ [setupFailure rule e] },
     cache, notices ++ [.setupFailed rule.name])
  | (.ok globs, cache, notices) =>
    let (result, more) := resultOn graph rule before (graph.matching globs)
    (result, cache, notices ++ more)

/-- The results of rules, one after the other. -/
def runAll (graph : Graph) (cache : Cache) (seen : List String) :
    List Rule → List RuleResult × Cache × List Notice
  | [] => ([], cache, [])
  | rule :: rules =>
    let (result, cache, notices) := runRule graph cache seen rule
    let (results, cache, more) := runAll graph cache (rule.identity :: seen) rules
    (result :: results, cache, notices ++ more)

/-- Validates a graph against rules. -/
def validate (cache : Cache) (rules : List Rule) (graph : Graph) :
    Results × Cache × List Notice :=
  let (results, cache, notices) := runAll graph cache [] rules
  (⟨Summary.ofResults rules.length results, results⟩, cache, notices)

/-- Validates what may turn out to be no rules or no graph. -/
def validate? (cache : Cache) (given : RulesGiven) (graph : Option Graph) :
    Except EngineError (Results × Cache × List Notice) :=
  match given, graph with
  | .other _, _ => .error .rulesNotAList
  | _, none => .error .notAGraph
  | .rules rules, some graph => .ok (validate cache rules graph)

/-! ## Previews -/

/-- The preview of a rule. -/
def previewRule (graph : Graph) (cache : Cache) (rule : Rule) : Preview × Cache × List Notice :=
  match compileLayer cache rule with
  | (.error e, cache, notices) =>
    ({ name := rule.name, layer := rule.layer, error := some e.message }, cache, notices)
  | (.ok globs, cache, notices) =>
    let files := (graph.matching globs).map (·.filePath)
    ({ name := rule.name, layer := rule.layer, matchedFiles := files.take maxPreviewFiles,
       truncated := maxPreviewFiles < files.length, totalFiles := files.length },
     cache, notices)

/-- The previews of rules, one after the other. -/
def preview (graph : Graph) (cache : Cache) : List Rule → List Preview × Cache × List Notice
  | [] => ([], cache, [])
  | rule :: rules =>
    let (p, cache, notices) := previewRule graph cache rule
    let (ps, cache, more) := preview graph cache rules
    (p :: ps, cache, notices ++ more)

/-- Why a value that is no list of rules has no previews. One without members has none to show. -/
def previewError? : Value → Option EngineError
  | .null => some (.notIterable "NoneType")
  | .bool _ => some (.notIterable "bool")
  | .int _ => some (.notIterable "int")
  | .real _ => some (.notIterable "float")
  | v => if v.isTruthy then some .notARule else none

/-- The previews of what may turn out to be no rules. -/
def preview? (graph : Graph) (cache : Cache) :
    RulesGiven → Except EngineError (List Preview × Cache × List Notice)
  | .rules rules => .ok (preview graph cache rules)
  | .other v =>
    match previewError? v with
    | some e => .error e
    | none => .ok ([], cache, [])

end Engine

end Layering
