import Layering.Proofs.List.Repetition
import Layering.Report.Console

/-!
# The rows of the console report

The console report is made of rows, some of which are about a violation. The groups of a rule's
violations by file hold each of them once (`perm_groupByFile`), so the violations that rows are about
are those of the results (`violationsOf_rows`).
-/

namespace Layering.Report.Console

theorem text_violation (plain : Bool) (v : Violation) :
    Row.text (if plain then ascii else unicode) (.violation v) =
      "      " ++ (if plain then "->" else "→") ++ " " ++ v.message ++
        (v.line.map fun l => ":" ++ l.text).getD "" := by
  cases plain <;> rfl

/-- The violation that a row is about. -/
def Row.violation? : Row → Option Violation
  | violation v => some v
  | _ => none

/-- Grouping by file neither loses nor repeats violations. -/
theorem perm_groupByFile (vs : List Violation) : ((groupByFile vs).flatMap (·.2)).Perm vs := by
  rw [groupByFile, List.flatMap_map]
  exact perm_groups Violation.place vs

/-- The violations that rows are about. -/
def violationsOf (rs : List Row) : List Violation := rs.filterMap Row.violation?

theorem violationsOf_append (rs ss : List Row) :
    violationsOf (rs ++ ss) = violationsOf rs ++ violationsOf ss := List.filterMap_append

theorem violationsOf_flatMap {α : Type} (f : α → List Row) (l : List α) :
    violationsOf (l.flatMap f) = l.flatMap fun x => violationsOf (f x) := by
  induction l with
  | nil => rfl
  | cons x l ih => rw [List.flatMap_cons, violationsOf_append, ih, List.flatMap_cons]

theorem violationsOf_violationRows (v : Violation) : violationsOf (violationRows v) = [v] := by
  unfold violationRows
  dsimp only
  split <;> rfl

theorem violationsOf_groupRows (f : String) (vs : List Violation) :
    violationsOf (.file f :: vs.flatMap violationRows) = vs := by
  have hfile : violationsOf (.file f :: vs.flatMap violationRows) =
      violationsOf (vs.flatMap violationRows) := rfl
  rw [hfile, violationsOf_flatMap]
  simp [violationsOf_violationRows]

/-- The rows of a rule are about each of its violations once. -/
theorem violationsOf_ruleRows (verbose : Bool) (r : RuleResult) :
    (violationsOf (ruleRows verbose r)).Perm r.violations := by
  have hrule : violationsOf [.rule r] = [] := rfl
  have hblank : violationsOf [.blank] = [] := rfl
  have hdescription : violationsOf
      (if verbose ∧ r.description ≠ "" then [.description r.description] else []) = [] := by
    split <;> rfl
  have hwarning : violationsOf (if r.status = .skipped ∧ r.message.getD "" ≠ "" then
      [.warning (r.message.getD "")] else []) = [] := by
    split <;> rfl
  have hgroups : violationsOf (ruleRows verbose r) = (groupByFile r.violations).flatMap (·.2) := by
    simp only [ruleRows, violationsOf_append, violationsOf_flatMap, violationsOf_groupRows, hrule,
      hblank, hdescription, hwarning, List.nil_append, List.append_nil]
  rw [hgroups]
  exact perm_groupByFile r.violations

/-- The rows of a report are about each violation of the results once. -/
theorem violationsOf_rows (R : Results) (verbose : Bool) (elapsed : Elapsed) :
    (violationsOf (rows R verbose elapsed)).Perm (R.rules.flatMap (·.violations)) := by
  have hrows : violationsOf (rows R verbose elapsed) =
      R.rules.flatMap fun r => violationsOf (ruleRows verbose r) := by
    rw [rows, violationsOf_append, violationsOf_append, violationsOf_flatMap]
    cases verbose <;> simp [violationsOf, Row.violation?]
  rw [hrows]
  exact List.Perm.flatMap_left _ fun r _ => violationsOf_ruleRows verbose r

end Layering.Report.Console
