import Layering.Proofs.Report.Console
import Layering.Proofs.Report.JUnit
import Layering.Proofs.Report.Record

/-!
# The reports agree

The JUnit report, the JSON report, the console report and the exit code are each made from the
results of a validation on their own, and count rules and violations in different ways. As the results
are accounted, they come to the same numbers (`reports_agree`).
-/

namespace Layering.Report

open Json Markup

/-- The reports on results, and the exit code, give the same account of them. -/
structure AgreeOn (R : Results) (elapsed : Elapsed) (stamp : Timestamp) : Prop where
  /-- The exit code says whether there is a violation. -/
  exitCode : (R.exitCode = 1 ∧ ∃ r ∈ R.rules, r.violations ≠ []) ∨
    (R.exitCode = 0 ∧ ∀ r ∈ R.rules, r.violations = [])
  /-- The elements of the JUnit report are as many as its attributes say and as were counted. -/
  junit : ∃ tokens, read (JUnit.text R elapsed stamp).toList = some tokens ∧ IsCounted tokens ∧
    (elements "testcase" tokens).length = R.summary.total ∧
    (elements "failure" tokens).length = R.summary.failed ∧
    (elements "skipped" tokens).length = R.summary.skipped
  /-- The JSON report gives the counts and the exit code. -/
  json : (Record.text R elapsed).toList = objectText 0 [
    ("version", "\"1.0.0\"".toList),
    ("summary", objectText 1 [
      ("total", (toString R.summary.total).toList),
      ("passed", (toString R.summary.passed).toList),
      ("failed", (toString R.summary.failed).toList),
      ("skipped", (toString R.summary.skipped).toList),
      ("violations", (toString R.summary.violations).toList),
      ("duration", printAt pretty 2 elapsed.atLeastZero.value),
      ("exitCode", (toString R.exitCode).toList)]),
    ("rules", printAt pretty 1 (.list (R.rules.map RuleResult.value)))]
  /-- The console report is made of the lines of its rows. The rows for violations show their messages
  and lines, and are about each violation once. -/
  console : ∀ verbose plain,
    Console.text R verbose plain elapsed = "\n".intercalate ((Console.rows R verbose elapsed).map
      (Console.Row.text (if plain then Console.ascii else Console.unicode))) ∧
    (∀ v, Console.Row.text (if plain then Console.ascii else Console.unicode) (.violation v) =
      "      " ++ (if plain then "->" else "→") ++ " " ++ v.message ++
        (v.line.map fun l => ":" ++ l.text).getD "") ∧
    (Console.violationsOf (Console.rows R verbose elapsed)).Perm (R.rules.flatMap (·.violations)) ∧
    (Console.violationsOf (Console.rows R verbose elapsed)).length = R.summary.violations

/-- **The accounts of a validation are right, and all reports agree on them.** Whatever a validation
finds, its results have one entry for each rule, in order, whose status says what was found; their
summary counts the entries of each status, which add up, and the violations. Every report on the
results, and the exit code, gives these numbers. -/
theorem reports_agree (cache : Glob.Cache) (rules : List Rule) (graph : Graph) :
    (Engine.validate cache rules graph).1.IsAccounted rules ∧
      ∀ elapsed stamp, AgreeOn (Engine.validate cache rules graph).1 elapsed stamp := by
  have h := Engine.isAccounted_validate cache rules graph
  refine ⟨h, fun elapsed stamp => ⟨h.exitCode_cases, JUnit.isCounted_text _ elapsed stamp h,
    Record.toList_text _ elapsed, fun verbose plain => ?_⟩⟩
  have hperm := Console.violationsOf_rows (Engine.validate cache rules graph).1 verbose elapsed
  refine ⟨rfl, Console.text_violation plain, hperm, ?_⟩
  rw [h.violations_eq, hperm.length_eq]

end Layering.Report
