import Layering.Proofs.Config.Setup

/-!
# Previews predict validations

A preview and a validation compile the layer of a rule in the same way, whatever their caches hold,
so a preview depends on the rule and the graph alone (`getElem?_preview`), and it fails where the
validation fails to set the rule up. Which components the check of a rule is called on can be seen
from outside, by putting other checks in its place (`CallsOn`): there is one list of them, and it is
the list of the components that the layer selects (`callsOn_iff`). Hence a preview shows on which
files a validation calls the rule (`preview_predicts`).
-/

namespace Layering.Engine

open Glob

/-! ## What a rule is called on -/

/-- A rule with another check in the place of its own. -/
def withCheck (rule : Rule) (check : Graph → Component → Except String (List Violation)) : Rule :=
  { rule with check := check }

/-- A validation calls the rule at a place on these components, one after the other, and on no
other: whatever check is put in the place of the rule's own, the violations are some that do not
depend on the check, followed by those of the calls. -/
def CallsOn (cache : Cache) (rules : List Rule) (graph : Graph) (i : ℕ) (called : List Component) :
    Prop :=
  ∃ rule own, rules[i]? = some rule ∧ ∀ check, ∃ r,
    (validate cache (rules.set i (withCheck rule check)) graph).1.rules[i]? = some r ∧
      r.violations = own ++ called.flatMap fun c => (checkFile graph (withCheck rule check) c).1

/-- Components that are told apart by no function to lists of violations are the same. -/
theorem eq_of_forall_flatMap_eq {cs ds : List Component}
    (h : ∀ f : Component → List Violation, cs.flatMap f = ds.flatMap f) : cs = ds := by
  have hlength : cs.length = ds.length := by
    simpa using congrArg List.length (h fun _ => [⟨"", "", none, none, none, none, none, none⟩])
  induction cs generalizing ds with
  | nil => exact (List.eq_nil_of_length_eq_zero hlength.symm).symm
  | cons c cs ih =>
    obtain ⟨d, ds, rfl⟩ := List.exists_cons_of_length_eq_add_one hlength.symm
    have hhead : d = c := by
      have hfirst := congrArg List.head? (h fun e =>
        [⟨"", if e = c then "called" else "", none, none, none, none, none, none⟩])
      by_contra hne
      simp [hne] at hfirst
    subst hhead
    refine congrArg (d :: ·) (ih (fun f => ?_) (Nat.succ.inj hlength))
    have hall := h f
    rw [List.flatMap_cons, List.flatMap_cons] at hall
    exact List.append_cancel_left hall

theorem CallsOn.eq {cache : Cache} {rules : List Rule} {graph : Graph} {i : ℕ}
    {called called' : List Component} (h : CallsOn cache rules graph i called)
    (h' : CallsOn cache rules graph i called') : called = called' := by
  obtain ⟨rule, own, hrule, hown⟩ := h
  obtain ⟨rule', own', hrule', hown'⟩ := h'
  obtain rfl := Option.some.inj (hrule.symm.trans hrule')
  have hboth : ∀ f : Component → List Violation,
      own ++ called.flatMap f = own' ++ called'.flatMap f := by
    intro f
    obtain ⟨r, hr, hv⟩ := hown fun _ c => .ok (f c)
    obtain ⟨r', hr', hv'⟩ := hown' fun _ c => .ok (f c)
    obtain rfl := Option.some.inj (hr.symm.trans hr')
    exact hv.symm.trans hv'
  -- a check that finds nothing leaves what does not depend on the check
  have hsame : own = own' := by
    have hsilent := hboth fun _ => []
    rwa [List.flatMap_eq_nil_iff.mpr (by simp), List.flatMap_eq_nil_iff.mpr (by simp),
      List.append_nil, List.append_nil] at hsilent
  exact eq_of_forall_flatMap_eq fun f => List.append_cancel_left (hsame ▸ hboth f)

/-! ## What a layer selects -/

/-- The components that the layer of a rule selects; none if it is refused. -/
def selected (graph : Graph) (rule : Rule) : List Component :=
  match layerGlobs rule.layer.patterns with
  | .error _ => []
  | .ok globs => graph.matching globs

/-- The violations of a rule that do not come from its check. -/
def ownViolations (before : List Violation) (rule : Rule) : List Violation :=
  match layerGlobs rule.layer.patterns with
  | .error e => before ++ [setupFailure rule e]
  | .ok _ => before

theorem violations_resultOn (graph : Graph) (rule : Rule) (before : List Violation)
    (files : List Component) :
    (resultOn graph rule before files).1.violations =
      before ++ files.flatMap fun c => (checkFile graph rule c).1 := by
  unfold resultOn
  split
  · rename_i hnone
    simp [List.isEmpty_iff.mp hnone.1, List.isEmpty_iff.mp hnone.2]
  · simp [List.flatMap_map]

theorem filesChecked_resultOn (graph : Graph) (rule : Rule) (before : List Violation)
    (files : List Component) :
    (resultOn graph rule before files).1.filesChecked = files.length := by
  unfold resultOn
  split
  · rename_i hnone
    simp [List.isEmpty_iff.mp hnone.1]
  · rfl

theorem violations_outcome (graph : Graph) (rule : Rule) (before : List Violation) :
    (outcome graph rule before).violations = ownViolations before rule ++
      (selected graph rule).flatMap fun c => (checkFile graph rule c).1 := by
  unfold outcome ownViolations selected
  cases layerGlobs rule.layer.patterns with
  | error e => simp
  | ok globs => exact violations_resultOn ..

theorem filesChecked_outcome (graph : Graph) (rule : Rule) (before : List Violation) :
    (outcome graph rule before).filesChecked = (selected graph rule).length := by
  unfold outcome selected
  cases layerGlobs rule.layer.patterns with
  | error e => rfl
  | ok globs => exact filesChecked_resultOn ..

/-- The layer selects components of the graph, in their order. -/
theorem selected_eq_filter (graph : Graph) (rule : Rule) :
    selected graph rule = graph.components.filter (· ∈ selected graph rule) := by
  obtain ⟨p, hp⟩ : ∃ p, selected graph rule = graph.components.filter p := by
    unfold selected
    cases layerGlobs rule.layer.patterns with
    | error e => exact ⟨fun _ => false, by simp⟩
    | ok globs => exact ⟨_, rfl⟩
  rw [hp]
  exact List.filter_congr fun c hc => by simp [hc]

/-- **A validation calls a rule on what its layer selects.** -/
theorem callsOn_iff {cache : Cache} (h : cache.IsSound) {rules : List Rule} {i : ℕ} {rule : Rule}
    (hrule : rules[i]? = some rule) (graph : Graph) (called : List Component) :
    CallsOn cache rules graph i called ↔ called = selected graph rule := by
  have hselected : CallsOn cache rules graph i (selected graph rule) := by
    refine ⟨rule, ownViolations (repetition ((rules.take i).map Rule.identity) rule) rule, hrule,
      fun check => ⟨_, ?_, violations_outcome graph (withCheck rule check) _⟩⟩
    obtain ⟨hi, -⟩ := List.getElem?_eq_some_iff.mp hrule
    refine (getElem?_runAll h graph [] (rules.set i (withCheck rule check)) i).trans ?_
    rw [List.getElem?_set_self hi, Option.map_some, List.append_nil, List.take_set_of_le le_rfl]
    rfl
  constructor
  · exact fun hcalled => hcalled.eq hselected
  · rintro rfl
    exact hselected

/-! ## Previews -/

/-- The preview of a rule, from the rule and the graph. -/
def outlook (graph : Graph) (rule : Rule) : Preview :=
  match layerGlobs rule.layer.patterns with
  | .error e => { name := rule.name, layer := rule.layer, error := some e.message }
  | .ok _ =>
    let files := (selected graph rule).map (·.filePath)
    { name := rule.name, layer := rule.layer, matchedFiles := files.take maxPreviewFiles,
      truncated := maxPreviewFiles < files.length, totalFiles := files.length }

theorem previewRule_spec {cache : Cache} (h : cache.IsSound) (graph : Graph) (rule : Rule) :
    (previewRule graph cache rule).1 = outlook graph rule := by
  have hglobs := (compileAll_spec h rule.layer.patterns).1
  unfold previewRule outlook selected
  rw [← hglobs]
  dsimp only [compileLayer]
  generalize compileAll cache rule.layer.patterns = compiled
  obtain ⟨result, next, notices⟩ := compiled
  cases result with
  | error e => rfl
  | ok globs => rfl

theorem length_preview (graph : Graph) (cache : Cache) (rules : List Rule) :
    (preview graph cache rules).1.length = rules.length := by
  induction rules generalizing cache with
  | nil => rfl
  | cons rule rules ih => exact congrArg (· + 1) (ih _)

/-- The preview of each rule depends on the rule and the graph alone. -/
theorem getElem?_preview {cache : Cache} (h : cache.IsSound) (graph : Graph) (rules : List Rule)
    (i : ℕ) : (preview graph cache rules).1[i]? = rules[i]?.map (outlook graph) := by
  induction rules generalizing cache i with
  | nil => rfl
  | cons rule rules ih =>
    cases i with
    | zero => exact congrArg some (previewRule_spec h graph rule)
    | succ i => exact ih (isSound_previewRule h graph rule) i

/-- What a preview says of the result of a rule that is called on some components: whether the rule
cannot be set up and why, and otherwise how many files it is called on and which ones come first. A
check may return violations of any text, so those of the calls are no failures of the setup. -/
structure Predicts (graph : Graph) (rule : Rule) (called : List Component) (p : Preview)
    (r : RuleResult) : Prop where
  error_iff : ∀ text, p.error = some text ↔
    ∃ v ∈ r.violations, v.message = "Rule setup failed: " ++ text ∧
      ∀ c ∈ called, v ∉ (checkFile graph rule c).1
  totalFiles_eq : p.error = none → (p.totalFiles : ℤ) = r.filesChecked
  matchedFiles_eq : p.error = none → p.matchedFiles =
    ((graph.components.filter (· ∈ called)).map (·.filePath)).take maxPreviewFiles
  truncated_iff : p.error = none → (p.truncated = true ↔ maxPreviewFiles < p.totalFiles)

theorem isSetupFailure_of_message {v : Violation} {text : String}
    (h : v.message = "Rule setup failed: " ++ text) : IsSetupFailure v := by
  simp [IsSetupFailure, h]

theorem predicts_of_error {graph : Graph} {rule : Rule} {e : PatternError}
    (h : layerGlobs rule.layer.patterns = .error e) (seen : List String) :
    Predicts graph rule (selected graph rule) (outlook graph rule)
      (outcome graph rule (repetition seen rule)) := by
  have hselected : selected graph rule = [] := by simp only [selected, h]
  have herror : (outlook graph rule).error = some e.message := by simp only [outlook, h]
  have hviolations : (outcome graph rule (repetition seen rule)).violations =
      repetition seen rule ++ [setupFailure rule e] := by simp only [outcome, h]
  have hmessage : (setupFailure rule e).message = "Rule setup failed: " ++ e.message := rfl
  refine ⟨fun text => ?_, ?_, ?_, ?_⟩
  · rw [herror, hviolations, hselected]
    constructor
    · intro htext
      obtain rfl := Option.some.inj htext
      exact ⟨setupFailure rule e, by simp, hmessage, List.forall_mem_nil _⟩
    · rintro ⟨v, hv, htext, -⟩
      rcases List.mem_append.mp hv with hv | hv
      · exact absurd (isSetupFailure_of_message htext) (not_isSetupFailure_repetition v hv)
      · rw [List.mem_singleton.mp hv, hmessage] at htext
        exact congrArg some ((String.append_right_inj _).mp htext)
  all_goals
    intro hnone
    rw [herror] at hnone
    cases hnone

theorem predicts_of_ok {graph : Graph} {rule : Rule} {globs : List Glob}
    (h : layerGlobs rule.layer.patterns = .ok globs) (seen : List String) :
    Predicts graph rule (selected graph rule) (outlook graph rule)
      (outcome graph rule (repetition seen rule)) := by
  have hnone : (outlook graph rule).error = none := by simp only [outlook, h]
  have htotal : (outlook graph rule).totalFiles = (selected graph rule).length := by
    simp only [outlook, h, List.length_map]
  have hmatched : (outlook graph rule).matchedFiles =
      ((selected graph rule).map (·.filePath)).take maxPreviewFiles := by simp only [outlook, h]
  have htruncated : (outlook graph rule).truncated =
      decide (maxPreviewFiles < (selected graph rule).length) := by
    simp only [outlook, h, List.length_map]
  have hown : ownViolations (repetition seen rule) rule = repetition seen rule := by
    simp only [ownViolations, h]
  refine ⟨fun text => ?_, fun _ => ?_, fun _ => ?_, fun _ => ?_⟩
  · rw [hnone, violations_outcome, hown]
    refine iff_of_false (by simp) ?_
    rintro ⟨v, hv, htext, hcalls⟩
    rcases List.mem_append.mp hv with hv | hv
    · exact not_isSetupFailure_repetition v hv (isSetupFailure_of_message htext)
    · obtain ⟨c, hc, hv⟩ := List.mem_flatMap.mp hv
      exact hcalls c hc hv
  · rw [htotal, filesChecked_outcome]
  · rw [hmatched, ← selected_eq_filter]
  · rw [htruncated, htotal, decide_eq_true_iff]

theorem predicts_outlook (graph : Graph) (rule : Rule) (seen : List String) :
    Predicts graph rule (selected graph rule) (outlook graph rule)
      (outcome graph rule (repetition seen rule)) := by
  cases h : layerGlobs rule.layer.patterns with
  | error e => exact predicts_of_error h seen
  | ok globs => exact predicts_of_ok h seen

/-- The check of a rule returns no violation that says that the rule cannot be set up. -/
def KeepsToFiles (graph : Graph) (rule : Rule) : Prop :=
  ∀ c vs, rule.check graph c = .ok vs → ∀ v ∈ vs, ¬IsSetupFailure v

theorem keepsToFiles_toRule (graph : Graph) (r : ImportRule) : KeepsToFiles graph r.toRule := by
  intro c vs hcheck v hv
  obtain rfl := Except.ok.inj hcheck
  exact not_isSetupFailure_of_mem_violations hv

theorem not_isSetupFailure_of_mem_checkFile {graph : Graph} {rule : Rule} {c : Component}
    {v : Violation} (h : KeepsToFiles graph rule) (hv : v ∈ (checkFile graph rule c).1) :
    ¬IsSetupFailure v := by
  unfold checkFile at hv
  split at hv
  · rename_i vs hcheck
    exact h c vs hcheck v hv
  · rw [List.mem_singleton.mp hv]
    simp [IsSetupFailure, checkFailure, toString]

/-- Where the check of a rule keeps to files, only the preview's error makes the result speak of the
setup. -/
theorem Predicts.error_iff_of_keepsToFiles {graph : Graph} {rule : Rule} {called : List Component}
    {p : Preview} {r : RuleResult} (h : Predicts graph rule called p r)
    (hrule : KeepsToFiles graph rule) (text : String) :
    p.error = some text ↔ ∃ v ∈ r.violations, v.message = "Rule setup failed: " ++ text := by
  rw [h.error_iff]
  refine exists_congr fun v => and_congr_right fun _ => and_iff_left_of_imp fun htext c _ hv => ?_
  exact not_isSetupFailure_of_mem_checkFile hrule hv (isSetupFailure_of_message htext)

/-- **A preview predicts the validation.** Let an engine preview rules on a graph, and let an engine
validate the graph against them, with caches of any limits and after any calls. There is one preview
and one result for each rule. The validation calls the rule on one list of components, and the
preview predicts the result: it has an error exactly if the result says that the rule cannot be set
up, for this reason; otherwise it counts the files that are checked, lists the first
`maxPreviewFiles` of the components that the rule is called on, in the order of the graph, and is
truncated exactly if there are more. -/
theorem preview_predicts (limit limit' : ℤ) (calls calls' : List Call)
    (rules : List Rule) (graph : Graph) :
    ∃ previews next notices results next' notices',
      preview? graph (after (.empty limit) calls) (.rules rules) = .ok (previews, next, notices) ∧
      validate? (after (.empty limit') calls') (.rules rules) (some graph) =
        .ok (results, next', notices') ∧
      previews.length = rules.length ∧ results.rules.length = rules.length ∧
      ∀ i rule, rules[i]? = some rule → ∃ p r called,
        previews[i]? = some p ∧ results.rules[i]? = some r ∧
        (∀ cs, CallsOn (after (.empty limit') calls') rules graph i cs ↔ cs = called) ∧
        Predicts graph rule called p r ∧
        (KeepsToFiles graph rule → ∀ text, p.error = some text ↔
          ∃ v ∈ r.violations, v.message = "Rule setup failed: " ++ text) := by
  have hsound := isSound_after (Cache.isSound_empty limit) calls
  have hsound' := isSound_after (Cache.isSound_empty limit') calls'
  refine ⟨_, _, _, _, _, _, rfl, rfl, length_preview .., length_runAll .., fun i rule hrule => ?_⟩
  have hpreview := getElem?_preview hsound graph rules i
  have hresult := getElem?_runAll hsound' graph [] rules i
  rw [hrule, Option.map_some] at hpreview hresult
  have hpredicts := predicts_outlook graph rule ((rules.take i).map Rule.identity ++ [])
  exact ⟨_, _, selected graph rule, hpreview, hresult, callsOn_iff hsound' hrule graph, hpredicts,
    hpredicts.error_iff_of_keepsToFiles⟩

/-- Two import rules of the same name. The layer of the second climbs out of the project. -/
def climbingRules : List Rule :=
  (layersRules [.str "src/*", .list [.str "src/*", .str "../*"]]).map ImportRule.toRule

/-- Calls that fill a cache by a preview and empty it again. -/
def previewCalls : List Call := [.preview (.rules climbingRules) oneFile, .request .clear]

/-- Why the second rule cannot be set up. -/
def climbingText : String := "Invalid layer pattern: directory traversal not allowed ('../*')"

theorem preview_predicts_climbingRules :
    ∃ previews next notices results next' notices' p r,
      preview? oneFile (after (.empty 1) previewCalls) (.rules climbingRules) =
        .ok (previews, next, notices) ∧
      validate? (after (.empty 0) [.request .clear]) (.rules climbingRules) (some oneFile) =
        .ok (results, next', notices') ∧
      previews[1]? = some p ∧ results.rules[1]? = some r ∧ p.error = some climbingText ∧
      ∃ v ∈ r.violations, v.message = "Rule setup failed: " ++ climbingText := by
  obtain ⟨previews, next, notices, results, next', notices', hok, hok', -, -, hall⟩ :=
    preview_predicts 1 0 previewCalls [.request .clear] climbingRules oneFile
  obtain ⟨p, r, called, hp, hr, -, -, herror_iff⟩ := hall 1 _ rfl
  have herror : p.error = some climbingText := by
    have hsecond : (preview oneFile (after (.empty 1) previewCalls) climbingRules).1[1]?.bind
        (·.error) = some climbingText := by decide +kernel
    rwa [show preview oneFile _ climbingRules = _ from Except.ok.inj hok, hp] at hsecond
  have hviolation := (herror_iff (keepsToFiles_toRule oneFile _) climbingText).mp herror
  exact ⟨previews, next, notices, results, next', notices', p, r, hok, hok', hp, hr, herror,
    hviolation⟩

end Layering.Engine
