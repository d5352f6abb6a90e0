import Layering.Json.Printer
import Layering.Report.Console

/-!
# The report as a record

The results with a version, the counts and the exit code, as JSON.
-/

namespace Layering.Report.Record

/-- The version of the format. -/
def version : String := "1.0.0"

/-- The report as a value. -/
def value (r : Results) (elapsed : Elapsed) : Value :=
  .record [
    ("version", .str version),
    ("summary", .record [
      ("total", .int r.summary.total),
      ("passed", .int r.summary.passed),
      ("failed", .int r.summary.failed),
      ("skipped", .int r.summary.skipped),
      ("violations", .int r.summary.violations),
      ("duration", elapsed.atLeastZero.value),
      ("exitCode", .int r.exitCode)]),
    ("rules", .list (r.rules.map RuleResult.value))]

/-- The report as JSON. -/
def text (r : Results) (elapsed : Elapsed) : String :=
  String.ofList (Json.print Json.pretty (value r elapsed))

end Layering.Report.Record
