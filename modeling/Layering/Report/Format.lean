import Layering.Report.JUnit
import Layering.Report.Record

/-!
# Formats of reports

A report is written for people, as JSON, or as JUnit test cases. A whole number of seconds that is worth
more than any floating-point number has no fraction, so a report that shows fractions of seconds cannot be
written.
-/

namespace Layering

/-- The formats of a report. -/
inductive ReportFormat where
  | console
  | json
  | junit
deriving DecidableEq, Repr

namespace ReportFormat

/-- The name of a format. -/
def text : ReportFormat → String
  | console => "console"
  | json => "json"
  | junit => "junit"

/-- All formats, in the order in which they are listed. -/
def all : List ReportFormat := [console, json, junit]

end ReportFormat

/-- Why a report cannot be written. -/
inductive ReportError where
  | hugeDuration
deriving DecidableEq, Repr

namespace Report

/-- How a report is written. -/
structure Style where
  format : ReportFormat
  /-- Say more than usual, in the format for people. -/
  verbose : Bool := false
  /-- Use plain signs, in the format for people. -/
  plain : Bool := false

/-- The report on results. -/
def write (style : Style) (r : Results) (elapsed : Elapsed) (stamp : Timestamp) :
    Except ReportError String :=
  match style.format with
  | .console =>
    if style.verbose && elapsed.isHuge then .error .hugeDuration
    else .ok (Console.text r style.verbose style.plain elapsed)
  | .json => .ok (Record.text r elapsed)
  | .junit =>
    if elapsed.atLeastZero.isHuge then .error .hugeDuration else .ok (JUnit.text r elapsed stamp)

end Report

end Layering
