import Layering.Rule.Violation

/-!
# Results of a validation

The result of each rule and their summary. A rule that found no file in its layer is skipped.
-/

namespace Layering

/-- The outcome of a rule. -/
inductive Status where
  | passed
  | failed
  | skipped
  | other (text : String)
deriving DecidableEq, Repr

namespace Status

/-- The word for an outcome. -/
def text : Status → String
  | passed => "passed"
  | failed => "failed"
  | skipped => "skipped"
  | other s => s

/-- The outcome that a word stands for. -/
def ofText (s : String) : Status :=
  if s = "passed" then passed
  else if s = "failed" then failed
  else if s = "skipped" then skipped
  else other s

end Status

/-- The message of a rule that found no file. -/
def skippedMessage : String := "No files matched layer pattern"

/-- The result of one rule. -/
structure RuleResult where
  name : String
  description : String
  status : Status := .passed
  filesChecked : Int := 0
  violations : List Violation := []
  message : Option String := none
deriving DecidableEq, Repr

/-- The record of a result. -/
def RuleResult.value (r : RuleResult) : Value :=
  .record (
    [("name", .str r.name), ("description", .str r.description), ("status", .str r.status.text),
     ("filesChecked", .int r.filesChecked),
     ("violations", .list (r.violations.map Violation.value))] ++
    (r.message.map fun m => ("message", Value.str m)).toList)

/-- Counts over the results. -/
structure Summary where
  total : Int := 0
  passed : Int := 0
  failed : Int := 0
  violations : Int := 0
deriving DecidableEq, Repr

namespace Summary

/-- The number of rules that neither passed nor failed. -/
def skipped (s : Summary) : Int := max 0 (s.total - s.passed - s.failed)

/-- The record of a summary. -/
def value (s : Summary) : Value :=
  .record [("total", .int s.total), ("passed", .int s.passed), ("failed", .int s.failed),
    ("violations", .int s.violations)]

/-- The summary after one more result. -/
def count (s : Summary) (r : RuleResult) : Summary :=
  let s := match r.status with
    | .failed => { s with failed := s.failed + 1 }
    | .passed => { s with passed := s.passed + 1 }
    | _ => s
  { s with violations := s.violations + r.violations.length }

/-- The summary of the results of a number of rules. -/
def ofResults (total : Nat) (results : List RuleResult) : Summary :=
  results.foldl count { total := total }

end Summary

/-- The results of a validation. -/
structure Results where
  summary : Summary
  rules : List RuleResult
deriving DecidableEq, Repr

namespace Results

/-- Whether some rule failed. -/
def hasFailures (r : Results) : Bool := 0 < r.summary.failed

/-- The exit code of a run with these results. -/
def exitCode (r : Results) : Nat := if r.hasFailures then 1 else 0

/-- The record of the results. -/
def value (r : Results) : Value :=
  .record [("summary", r.summary.value), ("rules", .list (r.rules.map RuleResult.value))]

end Results

end Layering
