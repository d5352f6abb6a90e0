import Layering.Proofs.Report.Element
import Layering.Proofs.Report.JUnit

/-!
# The elements of the JUnit report

The tags of the report are those of its lines (`read_text`). This module puts them together: a line
with the start of an element, the lines of its content, and a line with its end make the element
(`builds_block`), so the lines of a test case make that test case (`builds_case`), whatever is in the
names, messages, files and suggestions of the results. The elements that the results prescribe are
written down as `suitesElement`, without any regard to how they are written as text, and the report is
parsed as these (`parse_text`).
-/

namespace Layering.Report

namespace Markup

open Node

/-! ## Lines that make elements -/

/-- The indentation of a line. -/
def Node.margin (depth : ℕ) : List Node := (Line.indent depth).map .char

/-- A node on a line of its own. -/
def Node.onLine (depth : ℕ) (n : Node) : List Node := margin depth ++ n :: chars "\n"

/-- An element with its content on lines of their own. -/
def Node.block (depth : ℕ) (name : String) (attributes : List (String × String)) (content : List Node) :
    Node :=
  .element name attributes (chars "\n" ++ content ++ margin depth)

end Markup

namespace JUnit

open Markup Node

variable {as : List Attribute} {entries : List (String × String)}

theorem builds_margin (depth : ℕ) : Builds ((Line.indent depth).map .char) (margin depth) :=
  (decodes_plain fun h => absurd (List.eq_of_mem_replicate h) (by decide)).builds

theorem builds_newline : Builds [.char '\n'] (chars "\n") :=
  (decodes_singleton (by decide)).builds

theorem builds_textLine (s : String) : Builds (reportTokens [.text s]) (chars (s ++ "\n")) := by
  have h := (decodes_body s).builds.append builds_newline
  simpa [reportTokens, Line.tokens, chars] using h

theorem builds_emptyLine (depth : ℕ) (name : String)
    (h : List.Forall₂ Attribute.Means as entries) :
    Builds (reportTokens [.empty depth name as]) (onLine depth (.element name entries [])) := by
  have helement := builds_empty (@decoded?_eq name.toList as entries h)
  have hline := (builds_margin depth).append (helement.append builds_newline)
  simpa [reportTokens, Line.tokens, Line.tag, onLine] using hline

/-- The lines between the start of an element and its end make its content. -/
theorem builds_block (depth : ℕ) (name : String) {ls : List Line} {ns : List Node}
    (h : List.Forall₂ Attribute.Means as entries) (hls : Builds (reportTokens ls) ns) :
    Builds (reportTokens (.start depth name as :: (ls ++ [.stop depth name])))
      (onLine depth (block depth name entries ns)) := by
  have hcontent := (builds_newline.append hls).append (builds_margin depth)
  have helement := builds_element (@decoded?_eq name.toList as entries h) hcontent
  have hline := (builds_margin depth).append (helement.append builds_newline)
  simpa [reportTokens, Line.tokens, Line.tag, onLine, block] using hline

/-! ## The elements that are prescribed -/

/-- The failure of a result: the texts of its violations between two line ends. -/
def failureElement (r : RuleResult) : Node :=
  block 3 "failure"
    [("message", s!"{r.violations.length} violation(s)"), ("type", "ArchitectureViolation")]
    (chars (failureText r.violations ++ "\n"))

/-- The reason why a result was skipped: its message, if there is one. -/
def skippedElement (r : RuleResult) : Node :=
  let message := r.message.getD ""
  .element "skipped" [("message", if message = "" then skippedMessage else message)] []

/-- The test case of a result: with a failure if it failed, with a reason if it was skipped, and else
empty. -/
def caseElement (r : RuleResult) : Node :=
  let attributes := [("name", r.name), ("time", "0")]
  match r.status with
  | .failed => block 2 "testcase" attributes (onLine 3 (failureElement r))
  | .skipped => block 2 "testcase" attributes (onLine 3 (skippedElement r))
  | _ => .element "testcase" attributes []

/-- The one suite, with a test case for each result, in their order. -/
def suiteElement (r : Results) (elapsed : Elapsed) (stamp : Timestamp) : Node :=
  block 1 "testsuite"
    [("name", "Architecture Validation"), ("tests", toString r.summary.total),
      ("failures", toString r.summary.failed), ("errors", "0"),
      ("skipped", toString r.summary.skipped), ("time", elapsed.atLeastZero.text),
      ("timestamp", String.ofList (stamp.text 'T'))]
    (r.rules.flatMap fun rule => onLine 2 (caseElement rule))

/-- The element of all suites, with the one suite. -/
def suitesElement (r : Results) (elapsed : Elapsed) (stamp : Timestamp) : Node :=
  block 0 "testsuites"
    [("name", "Architecture"), ("tests", toString r.summary.total),
      ("failures", toString r.summary.failed), ("skipped", toString r.summary.skipped),
      ("time", elapsed.atLeastZero.text)]
    (onLine 1 (suiteElement r elapsed stamp))

/-! ## Reading the report -/

theorem means_caseAttributes (r : RuleResult) :
    List.Forall₂ Attribute.Means (caseAttributes r) [("name", r.name), ("time", "0")] :=
  .cons (Attribute.means_quoted "name" r.name) (.cons (Attribute.means_plain "time" (by decide)) .nil)

theorem means_failureAttributes (r : RuleResult) :
    List.Forall₂ Attribute.Means
      [.plain "message" s!"{r.violations.length} violation(s)", .plain "type" "ArchitectureViolation"]
      [("message", s!"{r.violations.length} violation(s)"), ("type", "ArchitectureViolation")] := by
  have htype := Attribute.means_plain "type" (by decide : '&' ∉ "ArchitectureViolation".toList)
  refine .cons ?_ (.cons htype .nil)
  exact Attribute.means_plain "message" (not_mem_violations (by decide) (by decide) _)

/-- The lines of a test case make the test case. -/
theorem builds_case (r : RuleResult) :
    Builds (reportTokens (caseDocument r)) (onLine 2 (caseElement r)) := by
  have hattributes := means_caseAttributes r
  cases hstatus : r.status with
  | failed =>
    simp only [caseDocument, caseElement, hstatus, failureElement]
    have hfailure := builds_block 3 "failure" (means_failureAttributes r)
      (builds_textLine (failureText r.violations))
    exact (builds_block 2 "testcase" hattributes hfailure :)
  | skipped =>
    simp only [caseDocument, caseElement, hstatus, skippedElement]
    have hmessage := Attribute.means_quoted "message"
      (if r.message.getD "" = "" then skippedMessage else r.message.getD "")
    have hskipped := builds_emptyLine 3 "skipped" (.cons hmessage .nil)
    exact (builds_block 2 "testcase" hattributes hskipped :)
  | passed =>
    simp only [caseDocument, caseElement, hstatus]
    exact builds_emptyLine 2 "testcase" hattributes
  | other text =>
    simp only [caseDocument, caseElement, hstatus]
    exact builds_emptyLine 2 "testcase" hattributes

section Suites

variable (r : Results) (elapsed : Elapsed) (stamp : Timestamp)

theorem means_number (key : String) (n : ℤ) :
    (Attribute.plain key (toString n)).Means (key, toString n) :=
  Attribute.means_plain key (not_mem_toString (by decide) n)

theorem means_time :
    (Attribute.plain "time" elapsed.atLeastZero.text).Means ("time", elapsed.atLeastZero.text) :=
  Attribute.means_plain "time" (not_mem_time (by decide) elapsed.atLeastZero)

theorem means_suitesAttributes :
    List.Forall₂ Attribute.Means (suitesAttributes r elapsed)
      [("name", "Architecture"), ("tests", toString r.summary.total),
        ("failures", toString r.summary.failed), ("skipped", toString r.summary.skipped),
        ("time", elapsed.atLeastZero.text)] := by
  have hname := Attribute.means_plain "name" (by decide : '&' ∉ "Architecture".toList)
  exact .cons hname <| .cons (means_number "tests" r.summary.total) <|
    .cons (means_number "failures" r.summary.failed) <|
    .cons (means_number "skipped" r.summary.skipped) <| .cons (means_time elapsed) .nil

theorem means_suiteAttributes :
    List.Forall₂ Attribute.Means (suiteAttributes r elapsed stamp)
      [("name", "Architecture Validation"), ("tests", toString r.summary.total),
        ("failures", toString r.summary.failed), ("errors", "0"),
        ("skipped", toString r.summary.skipped), ("time", elapsed.atLeastZero.text),
        ("timestamp", String.ofList (stamp.text 'T'))] := by
  have hname := Attribute.means_plain "name" (by decide : '&' ∉ "Architecture Validation".toList)
  have herrors := Attribute.means_plain "errors" (by decide : '&' ∉ "0".toList)
  have hstamp := Attribute.means_quoted "timestamp" (String.ofList (stamp.text 'T'))
  exact .cons hname <| .cons (means_number "tests" r.summary.total) <|
    .cons (means_number "failures" r.summary.failed) <| .cons herrors <|
    .cons (means_number "skipped" r.summary.skipped) <| .cons (means_time elapsed) <|
    .cons hstamp .nil

theorem reportTokens_flatMap {α : Type} (f : α → List Line) (l : List α) :
    reportTokens (l.flatMap f) = l.flatMap fun x => reportTokens (f x) := by
  simp only [reportTokens, List.flatMap_assoc]

/-- The lines of the report make the element of all suites. -/
theorem builds_suites :
    Builds (reportTokens (document r elapsed stamp).tail) (onLine 0 (suitesElement r elapsed stamp)) := by
  have hcases : Builds (reportTokens (r.rules.flatMap caseDocument))
      (r.rules.flatMap fun rule => onLine 2 (caseElement rule)) := by
    rw [reportTokens_flatMap]
    exact .flatMap builds_case r.rules
  have hsuite := builds_block 1 "testsuite" (means_suiteAttributes r elapsed stamp) hcases
  have hsuites := builds_block 0 "testsuites" (means_suitesAttributes r elapsed) hsuite
  simpa [document, suitesElement, suiteElement] using hsuites

end Suites

/-- **The report is read as the elements that the results prescribe**, whatever the names, messages, files
and suggestions are: one element of all suites, in it one suite, and in it one test case for each result,
in their order. -/
theorem parse_text (r : Results) (elapsed : Elapsed) (stamp : Timestamp) :
    parse (text r elapsed stamp).toList =
      some (chars "\n" ++ onLine 0 (suitesElement r elapsed stamp)) := by
  have hread : read (text r elapsed stamp).toList =
      some (.declaration (Line.tag "?xml" [.plain "version" "1.0", .plain "encoding" "UTF-8"]) ::
        ([.char '\n'] ++ reportTokens (document r elapsed stamp).tail)) :=
    read_text r elapsed stamp
  exact parse_eq hread (builds_newline.append (builds_suites r elapsed stamp))

end JUnit

end Layering.Report
