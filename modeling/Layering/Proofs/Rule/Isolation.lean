import Layering.Proofs.Glob.Transparency
import Layering.Rule.Engine

/-!
# Rules do not affect each other

Validation hands a cache of patterns and the identities of earlier rules from one rule to the next.
As a sound cache is transparent, the globs of a layer depend on its patterns alone
(`compileAll_spec`), so that the result of a rule depends on the rule, the graph, and on whether a
rule before it has its identity (`runRule_spec`). A repeated identity puts one violation in front of
the others and fails the rule (`outcome_duplicateName`). Whatever an engine was asked before, each
rule therefore has the result that it has alone, up to that violation (`validate_isolated`).
-/

namespace Layering.Engine

open Glob Json

/-! ## Layers -/

theorem isRecord_layerOptions : IsRecord layerOptions :=
  .inr ⟨_, rfl, isJson_record (by decide) (by simpa using .scalar rfl)⟩

theorem wantsDot_layerOptions : wantsDot layerOptions = true := by decide

/-- The globs that the patterns of a layer stand for, or the refusal of the first that is not safe.
-/
def layerGlobs (patterns : List Value) : Except PatternError (List Glob) :=
  patterns.mapM fun p => (Glob.validate "layer pattern" p).map fun s => compile true s.toList

theorem layerGlobs_cons_of_error {p : Value} {ps : List Value} {e : PatternError}
    (h : Glob.validate "layer pattern" p = .error e) : layerGlobs (p :: ps) = .error e := by
  rw [layerGlobs, List.mapM_cons, h]
  rfl

theorem layerGlobs_cons_of_ok {p : Value} {ps : List Value} {s : String}
    (h : Glob.validate "layer pattern" p = .ok s) :
    layerGlobs (p :: ps) = (layerGlobs ps).map (compile true s.toList :: ·) := by
  rw [layerGlobs, List.mapM_cons, h]
  rfl

theorem compilePattern_null (cache : Cache) (pattern : Value) :
    compilePattern cache pattern .null = cache.get "layer pattern" pattern layerOptions := rfl

/-- A layer pattern is looked up with the usual options, and fails for the pattern only. -/
theorem mapError_compileLayerPattern (cache : Cache) (pattern : Value) :
    (compileLayerPattern cache pattern).mapError .pattern =
      cache.get "layer pattern" pattern layerOptions := by
  rw [← compilePattern_null]
  unfold compileLayerPattern
  split
  · rename_i hget
    exact hget.symm
  · rename_i hget
    exact absurd hget (compilePattern_null_ne_options cache pattern)
  · rename_i hget
    exact hget.symm

/-- With a sound cache, what the patterns of a layer compile to does not depend on the cache. -/
theorem compileAll_spec {cache : Cache} (h : cache.IsSound) (patterns : List Value) :
    (compileAll cache patterns).1 = layerGlobs patterns ∧
      (compileAll cache patterns).2.1.IsSound := by
  induction patterns generalizing cache with
  | nil => exact ⟨rfl, h⟩
  | cons p ps ih =>
    have hlookup := mapError_compileLayerPattern cache p
    cases hcompile : compileLayerPattern cache p with
    | error e =>
      rw [hcompile] at hlookup
      have hp := Cache.get_eq_refused_iff.mp hlookup.symm
      simp only [compileAll, hcompile, layerGlobs_cons_of_error hp]
      exact ⟨trivial, h⟩
    | ok answer =>
      obtain ⟨found, next, notices⟩ := answer
      rw [hcompile] at hlookup
      obtain ⟨s, hp, hglob⟩ := h.eq_of_get isRecord_layerOptions hlookup.symm
      rw [wantsDot_layerOptions] at hglob
      obtain ⟨hrest, hsound⟩ := ih (h.get hlookup.symm)
      simp only [compileAll, hcompile, layerGlobs_cons_of_ok hp, hrest, hglob]
      exact ⟨trivial, hsound⟩

/-! ## One rule -/

/-- The result of a rule with violations that were found before its layer was compiled. -/
def outcome (graph : Graph) (rule : Rule) (before : List Violation) : RuleResult :=
  match layerGlobs rule.layer.patterns with
  | .error e =>
    { name := rule.name, description := rule.description, status := .failed,
      violations := before ++ [setupFailure rule e] }
  | .ok globs => (resultOn graph rule before (graph.matching globs)).1

/-- The violation that a rule starts with when its identity is among those that were seen. -/
def repetition (seen : List String) (rule : Rule) : List Violation :=
  if rule.identity ∈ seen then [duplicateName rule] else []

theorem runRule_spec {cache : Cache} (h : cache.IsSound) (graph : Graph) (seen : List String)
    (rule : Rule) :
    (runRule graph cache seen rule).1 = outcome graph rule (repetition seen rule) ∧
      (runRule graph cache seen rule).2.1.IsSound := by
  obtain ⟨hglobs, hsound⟩ := compileAll_spec h rule.layer.patterns
  have hbefore : (if seen.contains rule.identity then [duplicateName rule] else []) =
      repetition seen rule := by
    simp [repetition]
  unfold runRule outcome
  rw [hbefore, ← hglobs]
  dsimp only [compileLayer]
  generalize compileAll cache rule.layer.patterns = compiled at hsound
  obtain ⟨result, next, notices⟩ := compiled
  cases result with
  | error e => exact ⟨rfl, hsound⟩
  | ok globs => exact ⟨rfl, hsound⟩

/-- A repeated identity adds one violation to the result of a rule and fails it, and changes nothing
else. -/
theorem outcome_duplicateName (graph : Graph) (rule : Rule) :
    outcome graph rule [duplicateName rule] =
      { outcome graph rule [] with
        violations := duplicateName rule :: (outcome graph rule []).violations
        status := .failed
        message := none } := by
  unfold outcome
  cases layerGlobs rule.layer.patterns with
  | error e => rfl
  | ok globs =>
    dsimp only
    cases graph.matching globs with
    | nil => rfl
    | cons c cs => simp [resultOn]

/-! ## All rules -/

theorem isSound_runAll {cache : Cache} (h : cache.IsSound) (graph : Graph) (seen : List String)
    (rules : List Rule) : (runAll graph cache seen rules).2.1.IsSound := by
  induction rules generalizing cache seen with
  | nil => exact h
  | cons rule rules ih => exact ih (runRule_spec h graph seen rule).2 _

theorem length_runAll (graph : Graph) (cache : Cache) (seen : List String) (rules : List Rule) :
    (runAll graph cache seen rules).1.length = rules.length := by
  induction rules generalizing cache seen with
  | nil => rfl
  | cons rule rules ih => exact congrArg (· + 1) (ih _ _)

/-- The result of each rule, from the rule, the graph and the identities before it. -/
theorem getElem?_runAll {cache : Cache} (h : cache.IsSound) (graph : Graph) (seen : List String)
    (rules : List Rule) (i : ℕ) :
    (runAll graph cache seen rules).1[i]? = rules[i]?.map fun rule =>
      outcome graph rule (repetition ((rules.take i).map Rule.identity ++ seen) rule) := by
  induction rules generalizing cache seen i with
  | nil => rfl
  | cons rule rules ih =>
    obtain ⟨hresult, hsound⟩ := runRule_spec h graph seen rule
    cases i with
    | zero => exact congrArg some hresult
    | succ i =>
      refine (ih hsound (rule.identity :: seen) i).trans ?_
      -- the identity of the first rule moves from those that were seen to those of the rules before
      have hseen : ∀ r, repetition ((rules.take i).map Rule.identity ++ rule.identity :: seen) r =
          repetition (((rule :: rules).take (i + 1)).map Rule.identity ++ seen) r := by
        intro r
        simp [repetition, or_left_comm]
      simp only [List.getElem?_cons_succ, hseen]

theorem isSound_previewRule {cache : Cache} (h : cache.IsSound) (graph : Graph) (rule : Rule) :
    (previewRule graph cache rule).2.1.IsSound := by
  have hsound := (compileAll_spec h rule.layer.patterns).2
  unfold previewRule compileLayer
  generalize compileAll cache rule.layer.patterns = compiled at hsound
  obtain ⟨result, next, notices⟩ := compiled
  cases result with
  | error e => exact hsound
  | ok globs => exact hsound

theorem isSound_preview {cache : Cache} (h : cache.IsSound) (graph : Graph) (rules : List Rule) :
    (preview graph cache rules).2.1.IsSound := by
  induction rules generalizing cache with
  | nil => exact h
  | cons rule rules ih => exact ih (isSound_previewRule h graph rule)

/-! ## Histories -/

/-- What an engine, or the cache that it holds, may be asked. -/
inductive Call where
  | validate (given : RulesGiven) (graph : Option Graph)
  | preview (given : RulesGiven) (graph : Graph)
  | compileLayer (rule : Rule)
  | compilePattern (pattern options : Value)
  | request (r : Cache.Request)

/-- The cache after a call. One that is refused leaves the cache as it is. -/
def step (cache : Cache) : Call → Cache
  | .validate given graph =>
    match validate? cache given graph with
    | .ok (_, next, _) => next
    | .error _ => cache
  | .preview given graph =>
    match preview? graph cache given with
    | .ok (_, next, _) => next
    | .error _ => cache
  | .compileLayer rule => (Engine.compileLayer cache rule).2.1
  | .compilePattern pattern options =>
    match Engine.compilePattern cache pattern options with
    | .ok (_, next, _) => next
    | .error _ => cache
  | .request r => cache.step r

/-- The cache after calls, one after the other. -/
def after (cache : Cache) (calls : List Call) : Cache := calls.foldl step cache

theorem isSound_step {cache : Cache} (h : cache.IsSound) (call : Call) :
    (step cache call).IsSound := by
  cases call with
  | validate given graph =>
    cases given with
    | other v => exact h
    | rules rules =>
      cases graph with
      | none => exact h
      | some graph => exact isSound_runAll h graph [] rules
  | preview given graph =>
    cases given with
    | rules rules => exact isSound_preview h graph rules
    | other v =>
      unfold step preview?
      dsimp only
      cases previewError? v with
      | some e => exact h
      | none => exact h
  | compileLayer rule => exact (compileAll_spec h rule.layer.patterns).2
  | compilePattern pattern options =>
    unfold step
    dsimp only
    split
    · rename_i hget
      exact h.get hget
    · exact h
  | request r => exact h.step r

theorem isSound_after {cache : Cache} (h : cache.IsSound) (calls : List Call) :
    (after cache calls).IsSound := by
  induction calls generalizing cache with
  | nil => exact h
  | cons c cs ih => exact ih (isSound_step h c)

theorem rules_validate_singleton (limit : ℤ) (rule : Rule) (graph : Graph) :
    (validate (.empty limit) [rule] graph).1.rules = [outcome graph rule []] := by
  have hresult := (runRule_spec (Cache.isSound_empty limit) graph [] rule).1
  exact congrArg (fun r => [r]) hresult

/-- **Rules do not affect each other.** An engine with a cache of any limit, after any calls,
validates every list of rules against every graph. The result of a rule is the single result that
the rule has with a fresh engine; if a rule before it has the same full name, there is one violation
for that in front, the rule is failed, and its result has no message. -/
theorem validate_isolated (limit : ℤ) (calls : List Call) (rules : List Rule) (graph : Graph) :
    ∃ results next notices,
      validate? (after (.empty limit) calls) (.rules rules) (some graph) =
        .ok (results, next, notices) ∧
      results.rules.length = rules.length ∧
      ∀ i rule, rules[i]? = some rule → ∃ alone,
        (validate (.empty defaultCacheLimit) [rule] graph).1.rules = [alone] ∧
        results.rules[i]? = some (
          if ∃ earlier ∈ rules.take i,
              earlier.fullName.getD earlier.name = rule.fullName.getD rule.name then
            { alone with
              violations :=
                { ruleName := rule.name
                  message := s!"Duplicate rule name \"{rule.name}\""
                  suggestion := some "Give each rule a unique name" } :: alone.violations
              status := .failed
              message := none }
          else alone) := by
  have hsound : (after (.empty limit) calls).IsSound :=
    isSound_after (Cache.isSound_empty limit) calls
  refine ⟨_, _, _, rfl, length_runAll graph _ [] rules, fun i rule hrule => ?_⟩
  refine ⟨outcome graph rule [], rules_validate_singleton _ rule graph, ?_⟩
  refine (getElem?_runAll hsound graph [] rules i).trans ?_
  rw [hrule, Option.map_some, List.append_nil, repetition]
  simp only [List.mem_map]
  split
  · rename_i hearlier
    exact congrArg some ((outcome_duplicateName graph rule).trans (if_pos hearlier).symm)
  · rename_i hearlier
    exact congrArg some (if_neg hearlier).symm

/-- A rule on a layer that reports nothing, unless it cannot check files at all. -/
def plainRule (fullName : String) (layer : Value) (fails : Bool) : Rule where
  kind := "Rule"
  fullName := some fullName
  fullDescription := none
  layer := .ofValue layer
  check := fun _ _ => if fails then .error "boom" else .ok []

/-- Rules of which the second cannot check its files, the third has a layer that is refused, and the
last has the name of the second. -/
def mixedRules : List Rule :=
  [plainRule "files" (.str "src/*") false, plainRule "broken" (.str "src/*") true,
    plainRule "outside" (.list [.str "src/*", .str "../*"]) false,
    plainRule "broken" (.str "lib/*") false]

/-- A graph of one file. -/
def oneFile : Graph where
  components := [⟨"app", "src/app.py", "src", "file", "", [], []⟩]
  rootPath := ""
  languages := []
  directories := []

/-- Calls that fill a cache of one entry, with options that have no JSON text among them, and one that is
refused. -/
def earlierCalls : List Call :=
  [.compilePattern (.str "src/*") (.record [("dot", .bool false)]),
    .compilePattern (.str "lib/*") (.record [("dot", .set [])]),
    .validate (.rules mixedRules) (some oneFile), .validate (.rules mixedRules) none]

theorem validate_isolated_mixedRules :
    ∃ results next notices alone,
      validate? (after (.empty 1) earlierCalls) (.rules mixedRules) (some oneFile) =
        .ok (results, next, notices) ∧
      (validate (.empty defaultCacheLimit) [plainRule "broken" (.str "lib/*") false]
        oneFile).1.rules = [alone] ∧
      results.rules[3]? = some { alone with
        violations := duplicateName (plainRule "broken" (.str "lib/*") false) :: alone.violations
        status := .failed
        message := none } := by
  obtain ⟨results, next, notices, hok, -, hrules⟩ :=
    validate_isolated 1 earlierCalls mixedRules oneFile
  obtain ⟨alone, halone, hresult⟩ := hrules 3 _ rfl
  refine ⟨results, next, notices, alone, hok, halone, hresult.trans ?_⟩
  rw [if_pos ⟨plainRule "broken" (.str "src/*") true, by simp [mixedRules], rfl⟩]
  rfl

end Layering.Engine
