import Layering.Proofs.Config.Schema
import Layering.Proofs.Glob.Safety
import Layering.Proofs.Rule.Isolation

/-!
# Setting up the rules of a configuration

A configuration without issues gives rules whose layers are made of texts inside of the project
(`isInside_of_issues_eq_nil`), of which the engine refuses those that are not safe. A rule has a
violation for its setup exactly if its layer is refused (`exists_setupFailure_outcome_iff`), so the
rules of such a configuration are set up without failure exactly if all their layer patterns are safe
(`setup_failed_iff`).
-/

namespace Layering

namespace Config

/-- A layer of texts that name no place outside of the project. -/
def IsInside (layer : Layer) : Prop :=
  ∀ p ∈ layer.patterns, ∃ s, p = .str s ∧ leavesProject s = false

theorem isInside_of_layerIssues_eq_nil {path : String} {layer : Value}
    (h : layerIssues path layer = []) : IsInside (.ofValue layer) := by
  unfold layerIssues at h
  split at h
  · rename_i texts htexts
    rw [IsInside, patterns_ofValue htexts]
    intro p hp
    obtain ⟨s, hs, rfl⟩ := List.mem_map.mp hp
    refine ⟨s, rfl, Bool.eq_false_iff.mpr fun hleaves => ?_⟩
    simp [List.any_eq_true.mpr ⟨s, hs, hleaves⟩] at h
  · split at h <;> cases h

theorem isInside_of_ruleIssues_eq_nil {path : String} {record : Value} {r : ImportRule}
    (h : ruleIssues path record = []) (hr : RuleSet.ruleOf record = .ok r) : IsInside r.layer := by
  cases record with
  | map entries =>
    simp only [ruleIssues, List.append_eq_nil_iff] at h
    unfold RuleSet.ruleOf at hr
    cases hkind : RuleSet.kindOf (.map entries) with
    | error e =>
      rw [hkind] at hr
      cases hr
    | ok kind =>
      rw [hkind] at hr
      cases hr
      exact isInside_of_layerIssues_eq_nil h.1.2
  | scalar s => cases h
  | list items => cases h
  | set members => cases h

theorem exists_record_of_mem_mapM {records : List Value} {rules : List ImportRule}
    (h : records.mapM RuleSet.ruleOf = .ok rules) :
    ∀ r ∈ rules, ∃ record ∈ records, RuleSet.ruleOf record = .ok r := by
  induction records generalizing rules with
  | nil =>
    cases h
    simp
  | cons record records ih =>
    rw [List.mapM_cons] at h
    cases hrule : RuleSet.ruleOf record with
    | error e =>
      rw [hrule] at h
      cases h
    | ok r =>
      rw [hrule] at h
      cases hrest : records.mapM RuleSet.ruleOf with
      | error e =>
        rw [hrest] at h
        cases h
      | ok rest =>
        rw [hrest] at h
        cases h
        refine List.forall_mem_cons.mpr ⟨⟨record, List.mem_cons_self, hrule⟩, fun r hr => ?_⟩
        obtain ⟨record', hmem, hrule'⟩ := ih hrest r hr
        exact ⟨record', List.mem_cons_of_mem _ hmem, hrule'⟩

theorem isInside_of_issues_eq_nil {data : Value} {rules : List ImportRule} (h : issues data = [])
    (hrules : RuleSet.ofConfig data = .ok rules) : ∀ r ∈ rules, IsInside r.layer := by
  obtain ⟨entries, records, rfl, hfield, -, hissues⟩ := exists_records_of_issues_eq_nil h
  rw [RuleSet.ofConfig, hfield] at hrules
  dsimp only at hrules
  split at hrules
  · cases hrules
  · intro r hr
    obtain ⟨record, hmem, hrule⟩ := exists_record_of_mem_mapM hrules r hr
    obtain ⟨path, hnone⟩ := ruleIssues_eq_nil_of_mem hissues record hmem
    exact isInside_of_ruleIssues_eq_nil hnone hrule

end Config

namespace Engine

open Glob

/-! ## Refused layers -/

theorem layerGlobs_eq_error_iff {patterns : List Value} :
    (∃ e, layerGlobs patterns = .error e) ↔
      ∃ p ∈ patterns, ∃ e, Glob.validate "layer pattern" p = .error e := by
  induction patterns with
  | nil => simp [layerGlobs, pure, Except.pure]
  | cons p ps ih =>
    simp only [List.mem_cons, exists_eq_or_imp]
    cases hp : Glob.validate "layer pattern" p with
    | error e => simp [layerGlobs_cons_of_error hp]
    | ok s =>
      rw [layerGlobs_cons_of_ok hp, ← ih]
      cases layerGlobs ps <;> simp [Except.map]

/-- A layer inside of the project is refused exactly if one of its patterns is not safe. -/
theorem layerGlobs_error_iff_of_isInside {layer : Layer} (h : Config.IsInside layer) :
    (∃ e, layerGlobs layer.patterns = .error e) ↔
      ∃ s, .str s ∈ layer.patterns ∧ ¬IsSafe s.toList := by
  rw [layerGlobs_eq_error_iff]
  constructor
  · rintro ⟨p, hp, herror⟩
    obtain ⟨s, rfl, hs⟩ := h p hp
    exact ⟨s, hp, (validate_of_leavesProject_eq_false _ hs).2.1.mp herror⟩
  · rintro ⟨s, hp, hunsafe⟩
    obtain ⟨t, ht, hs⟩ := h _ hp
    cases ht
    exact ⟨_, hp, (validate_of_leavesProject_eq_false _ hs).2.1.mpr hunsafe⟩

/-- A violation that says that a rule cannot be set up. -/
def IsSetupFailure (v : Violation) : Prop := "Rule setup failed".toList <+: v.message.toList

theorem isSetupFailure_setupFailure (rule : Rule) (e : PatternError) :
    IsSetupFailure (setupFailure rule e) := by
  simp [IsSetupFailure, setupFailure, toString]

theorem not_isSetupFailure_duplicateName (rule : Rule) : ¬IsSetupFailure (duplicateName rule) := by
  simp [IsSetupFailure, duplicateName, toString]

theorem not_isSetupFailure_of_mem_violations {r : ImportRule} {c : Component} {v : Violation}
    (h : v ∈ r.violations c) : ¬IsSetupFailure v := by
  rw [ImportRule.violations, List.mem_append, List.mem_append] at h
  rcases h with (h | h) | h
  · obtain ⟨i, -, hi⟩ := List.mem_filterMap.mp h
    obtain ⟨p, -, rfl⟩ := Option.map_eq_some_iff.mp hi
    simp [IsSetupFailure, ImportRule.forbiddenImport, toString]
  · split at h
    · cases h
    · obtain ⟨i, -, rfl⟩ := List.mem_map.mp h
      simp [IsSetupFailure, ImportRule.unlistedImport, toString]
  · obtain ⟨p, -, rfl⟩ := List.mem_map.mp h
    simp [IsSetupFailure, ImportRule.missingImport, toString]

theorem not_isSetupFailure_repetition {seen : List String} {rule : Rule} :
    ∀ v ∈ repetition seen rule, ¬IsSetupFailure v := by
  intro v hv
  unfold repetition at hv
  split at hv
  · rw [List.mem_singleton.mp hv]
    exact not_isSetupFailure_duplicateName rule
  · cases hv

theorem mem_violations_resultOn {graph : Graph} {rule : Rule} {before : List Violation}
    {files : List Component} {v : Violation}
    (h : v ∈ (resultOn graph rule before files).1.violations) :
    v ∈ before ∨ ∃ c ∈ files, v ∈ (checkFile graph rule c).1 := by
  unfold resultOn at h
  split at h
  · cases h
  · simpa using h

/-- An import rule has a violation for its setup exactly if its layer is refused. -/
theorem exists_setupFailure_outcome_iff {graph : Graph} {r : ImportRule} {before : List Violation}
    (hbefore : ∀ v ∈ before, ¬IsSetupFailure v) :
    (∃ v ∈ (outcome graph r.toRule before).violations, IsSetupFailure v) ↔
      ∃ e, layerGlobs r.layer.patterns = .error e := by
  have hlayer : r.toRule.layer = r.layer := rfl
  unfold outcome
  rw [hlayer]
  cases layerGlobs r.layer.patterns with
  | error e =>
    refine iff_of_true ⟨setupFailure r.toRule e, by simp, isSetupFailure_setupFailure _ e⟩ ⟨e, rfl⟩
  | ok globs =>
    refine iff_of_false ?_ (by simp)
    rintro ⟨v, hv, hsetup⟩
    rcases mem_violations_resultOn hv with hv | ⟨c, -, hv⟩
    · exact hbefore v hv hsetup
    · exact not_isSetupFailure_of_mem_violations (r := r) (c := c) hv hsetup

theorem exists_setupFailure_validate_iff {cache : Cache} (h : cache.IsSound)
    (rules : List ImportRule) (graph : Graph) :
    (∃ result ∈ (validate cache (rules.map ImportRule.toRule) graph).1.rules,
        ∃ v ∈ result.violations, IsSetupFailure v) ↔
      ∃ r ∈ rules, ∃ e, layerGlobs r.layer.patterns = .error e := by
  have hresult := getElem?_runAll h graph [] (rules.map ImportRule.toRule)
  constructor
  · rintro ⟨result, hmem, hv⟩
    obtain ⟨i, hi⟩ := List.mem_iff_getElem?.mp hmem
    obtain ⟨rule, hrule, rfl⟩ := Option.map_eq_some_iff.mp ((hresult i).symm.trans hi)
    obtain ⟨r, hr, rfl⟩ := List.mem_map.mp (List.mem_of_getElem? hrule)
    exact ⟨r, hr, (exists_setupFailure_outcome_iff not_isSetupFailure_repetition).mp hv⟩
  · rintro ⟨r, hr, hglobs⟩
    obtain ⟨i, hi⟩ := List.mem_iff_getElem?.mp (List.mem_map_of_mem (f := ImportRule.toRule) hr)
    have hat := hresult i
    rw [hi, Option.map_some] at hat
    exact ⟨_, List.mem_of_getElem? hat,
      (exists_setupFailure_outcome_iff not_isSetupFailure_repetition).mpr hglobs⟩

/-- **Configurations without issues are set up, but for unsafe patterns.** Let a configuration have
no issues. All layer patterns of its rules are texts, none of which is refused because it climbs; they
are accepted exactly if they are safe. An engine with a cache of any limit, after any calls, compiles
the layer of a rule exactly if all its patterns are safe; and its validation of the rules against a
graph has a violation for the setup of a rule exactly if some pattern is not. -/
theorem setup_failed_iff {data : Value} {rules : List ImportRule} (h : Config.issues data = [])
    (hrules : RuleSet.ofConfig data = .ok rules) :
    (∀ r ∈ rules, ∀ p ∈ r.layer.patterns, ∃ s, p = .str s ∧
      (Glob.validate "layer pattern" p = .ok s ↔ IsSafe s.toList) ∧
      ∀ e, Glob.validate "layer pattern" p = .error e → e.fault ≠ .climbs) ∧
    ∀ limit calls,
      (∀ r ∈ rules, (∃ globs, (compileLayer (after (.empty limit) calls) r.toRule).1 = .ok globs) ↔
        ∀ s, .str s ∈ r.layer.patterns → IsSafe s.toList) ∧
      ∀ graph, (∃ result ∈ (validate (after (.empty limit) calls)
          (rules.map ImportRule.toRule) graph).1.rules, ∃ v ∈ result.violations, IsSetupFailure v) ↔
        ∃ r ∈ rules, ∃ s, .str s ∈ r.layer.patterns ∧ ¬IsSafe s.toList := by
  have hinside := Config.isInside_of_issues_eq_nil h hrules
  refine ⟨fun r hr p hp => ?_, fun limit calls => ⟨fun r hr => ?_, fun graph => ?_⟩⟩
  · obtain ⟨s, rfl, hs⟩ := hinside r hr p hp
    obtain ⟨hok, -, hclimbs⟩ := validate_of_leavesProject_eq_false "layer pattern" hs
    exact ⟨s, rfl, hok, hclimbs⟩
  · have hsound := isSound_after (Cache.isSound_empty limit) calls
    have hglobs : (compileLayer (after (.empty limit) calls) r.toRule).1 =
        layerGlobs r.layer.patterns := (compileAll_spec hsound r.layer.patterns).1
    have herror := layerGlobs_error_iff_of_isInside (hinside r hr)
    rw [hglobs]
    cases hlayer : layerGlobs r.layer.patterns with
    | error e =>
      obtain ⟨s, hs, hunsafe⟩ := herror.mp ⟨e, hlayer⟩
      exact iff_of_false (by simp) fun hsafe => hunsafe (hsafe s hs)
    | ok globs =>
      refine iff_of_true ⟨globs, rfl⟩ fun s hs => not_not.mp fun hunsafe => ?_
      obtain ⟨e, he⟩ := herror.mpr ⟨s, hs, hunsafe⟩
      cases hlayer.symm.trans he
  · rw [exists_setupFailure_validate_iff (isSound_after (Cache.isSound_empty limit) calls)]
    exact exists_congr fun r => and_congr_right fun hr =>
      layerGlobs_error_iff_of_isInside (hinside r hr)

/-- A configuration of one rule for each of some layers. -/
def layersConfig (layers : List Value) : Value :=
  .record [("rules", .list (layers.map fun layer => .record
    [("name", .str "layer"), ("layer", layer), ("may_import_from", .list [.str "src"])]))]

/-- The rules of that configuration. -/
def layersRules (layers : List Value) : List ImportRule :=
  layers.map fun layer => ⟨some "layer", none, .ofValue layer, [], ["src"], []⟩

/-- A blank layer, one with a NUL, one with a backslash in front, and one with a drive. -/
def unsafeLayers : List Value :=
  [.str "  ", .str "src\x00", .list [.str "src/*", .str "\\src"], .str "C:/src"]

theorem setup_failed_unsafeLayers :
    Config.issues (layersConfig unsafeLayers) = [] ∧
      RuleSet.ofConfig (layersConfig unsafeLayers) = .ok (layersRules unsafeLayers) ∧
      (validate (.empty defaultCacheLimit) ((layersRules unsafeLayers).map ImportRule.toRule)
        oneFile).1.rules.length = 4 ∧
      ∀ result ∈ (validate (.empty defaultCacheLimit)
        ((layersRules unsafeLayers).map ImportRule.toRule) oneFile).1.rules,
        ∃ v ∈ result.violations, IsSetupFailure v := by
  refine ⟨by decide +kernel, rfl, by decide +kernel, ?_⟩
  unfold IsSetupFailure
  decide +kernel

/-- Layers with a colon, a backslash, a dot in front and a blank behind. -/
def safeLayers : List Value := [.list [.str "c:src/*", .str "src\\ui/*"], .str "./src/* "]

/-- A validation in which every rule fails to be set up. -/
def failedCall : Call :=
  .validate (.rules ((layersRules unsafeLayers).map ImportRule.toRule)) (some oneFile)

theorem setup_failed_iff_safeLayers :
    Config.issues (layersConfig safeLayers) = [] ∧
      RuleSet.ofConfig (layersConfig safeLayers) = .ok (layersRules safeLayers) ∧
      ¬∃ result ∈ (validate (after (.empty 1) [failedCall])
        ((layersRules safeLayers).map ImportRule.toRule) oneFile).1.rules,
        ∃ v ∈ result.violations, IsSetupFailure v := by
  have hissues : Config.issues (layersConfig safeLayers) = [] := by decide +kernel
  have hrules : RuleSet.ofConfig (layersConfig safeLayers) = .ok (layersRules safeLayers) := rfl
  refine ⟨hissues, hrules, ?_⟩
  rw [((setup_failed_iff hissues hrules).2 1 [failedCall]).2 oneFile]
  rintro ⟨r, hr, s, hs, hunsafe⟩
  have hsafe : ∀ r ∈ layersRules safeLayers, ∀ p ∈ r.layer.patterns, ∀ s ∈ p.text?.toList,
      IsSafe s.toList := by decide +kernel
  exact hunsafe (hsafe r hr _ hs s (by simp [Value.text?]))

end Engine

end Layering
