import Layering.Report.Console
import Layering.Report.Markup

/-!
# The JUnit report

One test case for each rule. A failed rule holds a failure with the texts of its violations, a
skipped one says why it was skipped.
-/

namespace Layering.Report.JUnit

open Markup

/-- The text of a violation. -/
def violationText (v : Violation) : String :=
  let line := (v.line.map fun l => ":" ++ l.text).getD ""
  let suggestion := v.suggestion.getD ""
  s!"File: {v.place}{line}\nMessage: {v.message}" ++
    (if suggestion = "" then "" else s!"\nSuggestion: {suggestion}")

/-- The text of a failure. -/
def failureText (vs : List Violation) : String := "\n\n".intercalate (vs.map violationText)

/-- The lines of a test case. -/
def caseLines (r : RuleResult) : List String :=
  let name := attributeText r.name
  match r.status with
  | .failed =>
    [s!"    <testcase name={name} time=\"0\">",
     s!"      <failure message=\"{r.violations.length} violation(s)\" type=\"ArchitectureViolation\">",
     body (failureText r.violations),
     "      </failure>",
     "    </testcase>"]
  | .skipped =>
    let message := r.message.getD ""
    let reason := attributeText (if message = "" then skippedMessage else message)
    [s!"    <testcase name={name} time=\"0\">",
     s!"      <skipped message={reason}/>",
     "    </testcase>"]
  | _ => [s!"    <testcase name={name} time=\"0\"/>"]

/-- The lines of the report. -/
def lines (r : Results) (elapsed : Elapsed) (stamp : Timestamp) : List String :=
  let s := r.summary
  let time := elapsed.atLeastZero.text
  let counts := s!"tests=\"{s.total}\" failures=\"{s.failed}\""
  let written := attributeText (String.ofList (stamp.text 'T'))
  ["<?xml version=\"1.0\" encoding=\"UTF-8\"?>",
   s!"<testsuites name=\"Architecture\" {counts} skipped=\"{s.skipped}\" time=\"{time}\">",
   s!"  <testsuite name=\"Architecture Validation\" {counts} errors=\"0\" " ++
     s!"skipped=\"{s.skipped}\" time=\"{time}\" " ++
     s!"timestamp={written}>"] ++
  r.rules.flatMap caseLines ++
  ["  </testsuite>", "</testsuites>"]

/-- The report. -/
def text (r : Results) (elapsed : Elapsed) (stamp : Timestamp) : String :=
  "\n".intercalate (lines r elapsed stamp) ++ "\n"

end Layering.Report.JUnit
