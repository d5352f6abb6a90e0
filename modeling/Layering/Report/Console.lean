import Layering.Decimal.Fixed
import Layering.Report.Basic

/-!
# The console report

One line for each rule, with its violations below it, grouped by file, and a line on all rules at the
end. The signs in front of the lines are Unicode or plain ASCII.
-/

namespace Layering

open Decimal

/-- The time that a run took, in seconds. -/
inductive Elapsed where
  | whole (seconds : Int)
  | exact (seconds : Binary64)

namespace Elapsed

/-- No time at all. -/
def none : Elapsed := exact (Binary64.zero false)

/-- The time as a floating-point number. -/
def number : Elapsed → Binary64
  | whole n => Binary64.ofInt n
  | exact x => x

/-- Whether the time is worth more than any floating-point number. -/
def isHuge : Elapsed → Bool
  | whole n => match Binary64.ofInt n with
    | .infinite _ => true
    | _ => false
  | exact _ => false

/-- The time, or zero when it is negative. -/
def atLeastZero (e : Elapsed) : Elapsed :=
  match e with
  | whole n => if 0 < n then e else none
  | exact (.finite false m _) => if m = 0 then none else e
  | exact (.infinite false) => e
  | _ => none

/-- The time with three places. -/
def text (e : Elapsed) : String := String.ofList (e.number.fixedText 3)

/-- The time as a value with at most three places; a whole number of seconds stays one. -/
def value : Elapsed → Value
  | whole n => .int n
  | exact x => .real (x.roundTo 3)

end Elapsed

namespace Report.Console

/-- The signs in front of lines. -/
structure Icons where
  success : String
  error : String
  warning : String
  skipped : String
  arrow : String

/-- Unicode signs. -/
def unicode : Icons := ⟨"✓", "✗", "!", "↷", "→"⟩

/-- Plain signs. -/
def ascii : Icons := ⟨"[OK]", "[FAIL]", "[WARN]", "[SKIP]", "->"⟩

/-- The violations with the files they are listed under, each file once, in the order of its first
violation. -/
def groupByFile (vs : List Violation) : List (String × List Violation) :=
  (vs.map Violation.place).eraseDups.map fun f => (f, vs.filter (·.place = f))

/-- What a line of the report is about. -/
inductive Row where
  | rule (r : RuleResult)
  | description (s : String)
  | file (name : String)
  | violation (v : Violation)
  | suggestion (s : String)
  | warning (s : String)
  | blank
  | summary (r : Results)
  | duration (elapsed : Elapsed)

/-- The line on all rules. -/
def summaryLine (icons : Icons) (r : Results) : String :=
  let s := r.summary
  if r.hasFailures then
    s!"{icons.error} {s.failed} of {s.total} rules failed ({s.violations} violations)"
  else if s.passed = s.total then s!"{icons.success} All {s.total} rules passed"
  else s!"{icons.warning} {s.passed} passed, {s.skipped} skipped"

/-- The line of a row. A text in it may hold line ends of its own. -/
def Row.text (icons : Icons) : Row → String
  | rule r =>
    let icon := match r.status with
      | .passed => icons.success
      | .skipped => icons.skipped
      | _ => icons.error
    s!"{icon} {r.name} ({r.filesChecked} files)"
  | description s => s!"   {s}"
  | file name => s!"   {name}"
  | violation v =>
    let loc := (v.line.map fun l => ":" ++ l.text).getD ""
    s!"      {icons.arrow} {v.message}{loc}"
  | suggestion s => s!"        {s}"
  | warning s => s!"   {icons.warning} {s}"
  | blank => ""
  | summary r => summaryLine icons r
  | duration elapsed => s!"Duration: {elapsed.text}s"

/-- The rows of a violation. -/
def violationRows (v : Violation) : List Row :=
  let suggestion := v.suggestion.getD ""
  .violation v :: if suggestion = "" then [] else [.suggestion suggestion]

/-- The rows of a rule. -/
def ruleRows (verbose : Bool) (r : RuleResult) : List Row :=
  let message := r.message.getD ""
  [.rule r] ++
  (if verbose ∧ r.description ≠ "" then [.description r.description] else []) ++
  (groupByFile r.violations).flatMap (fun (f, vs) => .file f :: vs.flatMap violationRows) ++
  (if r.status = .skipped ∧ message ≠ "" then [.warning message] else []) ++
  [.blank]

/-- The rows of the report. -/
def rows (r : Results) (verbose : Bool) (elapsed : Elapsed) : List Row :=
  r.rules.flatMap (ruleRows verbose) ++ [.summary r] ++
    (if verbose then [.blank, .duration elapsed] else [])

/-- The report. -/
def text (r : Results) (verbose plain : Bool) (elapsed : Elapsed) : String :=
  "\n".intercalate ((rows r verbose elapsed).map (Row.text (if plain then ascii else unicode)))

end Report.Console

end Layering
