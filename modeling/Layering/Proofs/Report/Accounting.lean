import Layering.Rule.Engine
import Mathlib.Data.Int.Notation
import Mathlib.Data.List.Basic
import Mathlib.Data.List.Forall2
import Mathlib.Tactic.Common

/-!
# The accounts of a validation

The status of a rule follows from the number of its violations and of the files that it checked
(`RuleResult.IsAccounted`). This holds of each of the ways in which a rule is run
(`isEntryOf_runRule`), so of all results of a validation. The summary is made by going through them one
by one; what it comes to are the numbers of results of each status and of violations (`foldl_count`,
`isAccounted_validate`). As every status is one of three, the numbers of rules add up.
-/

namespace Layering

/-- A result whose status says what it found: violations, no violations in some files, or no files. -/
structure RuleResult.IsAccounted (r : RuleResult) : Prop where
  failed_iff : r.status = .failed ↔ r.violations ≠ []
  skipped_iff : r.status = .skipped ↔ r.violations = [] ∧ r.filesChecked = 0
  passed_iff : r.status = .passed ↔ r.violations = [] ∧ 0 < r.filesChecked
  filesChecked_nonneg : 0 ≤ r.filesChecked

theorem RuleResult.IsAccounted.status_cases {r : RuleResult} (h : r.IsAccounted) :
    r.status = .passed ∨ r.status = .failed ∨ r.status = .skipped := by
  by_cases hv : r.violations = []
  · have hnonneg := h.filesChecked_nonneg
    by_cases hzero : r.filesChecked = 0
    · exact .inr (.inr (h.skipped_iff.mpr ⟨hv, hzero⟩))
    · exact .inl (h.passed_iff.mpr ⟨hv, by omega⟩)
  · exact .inr (.inl (h.failed_iff.mpr hv))

/-- The accounted result of a rule. -/
structure RuleResult.IsEntryOf (r : RuleResult) (rule : Rule) : Prop extends r.IsAccounted where
  name_eq : r.name = rule.name
  description_eq : r.description = rule.description

/-- The number of results with a status. -/
def countStatus (s : Status) (results : List RuleResult) : ℕ :=
  (results.filter (·.status = s)).length

/-- Results with one accounted entry for each rule, in order, and a summary that counts them. -/
structure Results.IsAccounted (R : Results) (rules : List Rule) : Prop where
  entries : List.Forall₂ (fun rule r => r.IsEntryOf rule) rules R.rules
  total_eq : R.summary.total = R.rules.length
  passed_eq : R.summary.passed = countStatus .passed R.rules
  failed_eq : R.summary.failed = countStatus .failed R.rules
  skipped_eq : R.summary.skipped = countStatus .skipped R.rules
  sum_eq : R.summary.passed + R.summary.failed + R.summary.skipped = R.summary.total
  violations_eq : R.summary.violations = (R.rules.flatMap (·.violations)).length

theorem countStatus_add {results : List RuleResult} (h : ∀ r ∈ results, r.IsAccounted) :
    countStatus .passed results + countStatus .failed results + countStatus .skipped results =
      results.length := by
  induction results with
  | nil => rfl
  | cons r results ih =>
    obtain ⟨hr, hrest⟩ := List.forall_mem_cons.mp h
    have hsum := ih hrest
    simp only [countStatus] at hsum
    rcases hr.status_cases with hs | hs | hs <;>
      simp [countStatus, hs] <;> omega

/-- A result with violations is failed, and one without is passed if there were files. -/
theorem isAccounted_of_files {name description : String} {vs : List Violation} {n : ℕ}
    (h : vs = [] → n ≠ 0) :
    RuleResult.IsAccounted
      ⟨name, description, if vs.isEmpty then .passed else .failed, n, vs, none⟩ := by
  cases vs with
  | nil =>
    have hn : n ≠ 0 := h rfl
    constructor <;> simp [hn, Nat.pos_of_ne_zero]
  | cons v vs => constructor <;> simp

namespace Engine

variable (graph : Graph) (rule : Rule)

theorem isEntryOf_resultOn (before : List Violation) (files : List Component) :
    (resultOn graph rule before files).1.IsEntryOf rule := by
  unfold resultOn
  split
  · constructor
    · constructor <;> simp
    · rfl
    · rfl
  · rename_i hsome
    refine ⟨isAccounted_of_files fun hnone hlength => hsome ?_, rfl, rfl⟩
    have hbefore : before = [] := (List.append_eq_nil_iff.mp hnone).1
    simp [List.length_eq_zero_iff.mp hlength, hbefore]

theorem isEntryOf_runRule (cache : Glob.Cache) (seen : List String) :
    (runRule graph cache seen rule).1.IsEntryOf rule := by
  unfold runRule
  dsimp only
  split
  · constructor
    · constructor <;> simp
    · rfl
    · rfl
  · exact isEntryOf_resultOn ..

/-- Each rule has one result, in order. -/
theorem forall₂_runAll (cache : Glob.Cache) (seen : List String) (rules : List Rule) :
    List.Forall₂ (fun rule r => r.IsEntryOf rule) rules (runAll graph cache seen rules).1 := by
  induction rules generalizing cache seen with
  | nil => exact .nil
  | cons rule rules ih => exact .cons (isEntryOf_runRule ..) (ih ..)

end Engine

theorem isAccounted_of_forall₂ {rules : List Rule} {results : List RuleResult}
    (h : List.Forall₂ (fun rule r => r.IsEntryOf rule) rules results) :
    ∀ r ∈ results, r.IsAccounted := by
  induction h with
  | nil => simp
  | cons hr _ ih => exact List.forall_mem_cons.mpr ⟨hr.toIsAccounted, ih⟩

/-! ## The summary -/

theorem countStatus_cons (s : Status) (r : RuleResult) (results : List RuleResult) :
    countStatus s (r :: results) = (if r.status = s then 1 else 0) + countStatus s results := by
  unfold countStatus
  rw [List.filter_cons]
  by_cases hs : r.status = s
  · rw [if_pos (decide_eq_true hs), if_pos hs, List.length_cons, Nat.add_comm]
  · rw [if_neg (by simpa using hs), if_neg hs, Nat.zero_add]

/-- One more result counts by its status, and all its violations count. -/
theorem Summary.count_eq (s : Summary) (r : RuleResult) : s.count r =
    { total := s.total
      passed := s.passed + if r.status = .passed then 1 else 0
      failed := s.failed + if r.status = .failed then 1 else 0
      violations := s.violations + r.violations.length } := by
  unfold Summary.count
  cases r.status <;> simp

/-- Results that are counted one by one add the numbers of those that passed and failed, and of all
violations. -/
theorem Summary.foldl_count (results : List RuleResult) (s : Summary) : results.foldl count s =
    { total := s.total
      passed := s.passed + countStatus .passed results
      failed := s.failed + countStatus .failed results
      violations := s.violations + (results.flatMap (·.violations)).length } := by
  induction results generalizing s with
  | nil => simp [countStatus]
  | cons r results ih =>
    rw [List.foldl_cons, ih, count_eq, Summary.mk.injEq, countStatus_cons, countStatus_cons]
    dsimp only
    refine ⟨rfl, ?_, ?_, ?_⟩
    · split <;> omega
    · split <;> omega
    · rw [List.flatMap_cons, List.length_append]
      omega

theorem Summary.ofResults_eq (total : ℕ) (results : List RuleResult) : ofResults total results =
    { total := total
      passed := countStatus .passed results
      failed := countStatus .failed results
      violations := (results.flatMap (·.violations)).length } := by
  rw [ofResults, foldl_count]
  simp

namespace Engine

theorem isAccounted_validate (cache : Glob.Cache) (rules : List Rule) (graph : Graph) :
    (validate cache rules graph).1.IsAccounted rules := by
  have hentries := forall₂_runAll graph cache [] rules
  set results := (runAll graph cache [] rules).1 with hresults
  have hvalidate : (validate cache rules graph).1 =
      ⟨Summary.ofResults rules.length results, results⟩ := rfl
  have hlength := hentries.length_eq
  have hsum := countStatus_add (isAccounted_of_forall₂ hentries)
  have hskipped : (Summary.ofResults rules.length results).skipped =
      countStatus .skipped results := by
    rw [Summary.ofResults_eq, Summary.skipped]
    dsimp only
    omega
  rw [hvalidate]
  refine ⟨hentries, ?_, ?_, ?_, hskipped, ?_, ?_⟩
  · rw [Summary.ofResults_eq]
    exact congrArg _ hlength
  · rw [Summary.ofResults_eq]
  · rw [Summary.ofResults_eq]
  · rw [hskipped, Summary.ofResults_eq]
    dsimp only
    omega
  · rw [Summary.ofResults_eq]

end Engine

namespace Results

variable {R : Results} {rules : List Rule}

theorem IsAccounted.hasFailures_iff (h : R.IsAccounted rules) :
    R.hasFailures = true ↔ ∃ r ∈ R.rules, r.violations ≠ [] := by
  have hall := isAccounted_of_forall₂ h.entries
  rw [hasFailures, decide_eq_true_iff, h.failed_eq, Int.natCast_pos, countStatus,
    List.length_filter_pos_iff]
  refine exists_congr fun r => and_congr_right fun hr => ?_
  rw [decide_eq_true_iff, (hall r hr).failed_iff]

/-- A run exits with 1 if there is a violation, and with 0 if there is none. -/
theorem IsAccounted.exitCode_cases (h : R.IsAccounted rules) :
    (R.exitCode = 1 ∧ ∃ r ∈ R.rules, r.violations ≠ []) ∨
      (R.exitCode = 0 ∧ ∀ r ∈ R.rules, r.violations = []) := by
  have hiff := h.hasFailures_iff
  unfold exitCode
  split
  · rename_i hfailures
    exact .inl ⟨rfl, hiff.mp hfailures⟩
  · rename_i hnone
    refine .inr ⟨rfl, fun r hr => not_not.mp fun hv => hnone (hiff.mpr ⟨r, hr, hv⟩)⟩

end Results

end Layering
