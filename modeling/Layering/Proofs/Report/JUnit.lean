import Layering.Proofs.Decimal.Numeral
import Layering.Proofs.Report.Accounting
import Layering.Proofs.Report.Markup
import Layering.Report.JUnit

/-!
# Reading the JUnit report

The lines of the report are tags, apart from the texts of failures (`lines_eq_document`). Whatever
the names, the messages and the files of the results are, each line is read as the tag or the text
that it stands for (`Line.IsWritten.reads`), so that the tags of the whole report are known
(`read_text`). In particular, the report has as many test cases as there are results, and as many
failures and skipped cases as there are results with that status (`length_elements`).
-/

namespace Layering.Report

open Markup

namespace Markup

/-- The element that a token starts, if it has the name. -/
def Token.element? (name : String) : Token → Option Tag
  | .start t => if t.name = name.toList then some t else none
  | .empty t => if t.name = name.toList then some t else none
  | _ => none

/-- The elements of a name. -/
def elements (name : String) (tokens : List Token) : List Tag := tokens.filterMap (Token.element? name)

/-- The value of an attribute, as it is written. -/
def Tag.value? (t : Tag) (key : String) : Option String :=
  (t.attributes.lookup key.toList).map String.ofList

/-- Markup with one element of suites and one suite in which the numbers of test cases, of failures
and of skipped cases stand as attributes. -/
structure IsCounted (tokens : List Token) : Prop where
  one_suites : (elements "testsuites" tokens).length = 1
  one_suite : (elements "testsuite" tokens).length = 1
  counts : ∀ t ∈ elements "testsuites" tokens ++ elements "testsuite" tokens,
    t.value? "tests" = some (toString (elements "testcase" tokens).length) ∧
    t.value? "failures" = some (toString (elements "failure" tokens).length) ∧
    t.value? "skipped" = some (toString (elements "skipped" tokens).length)

theorem elements_append (name : String) (a b : List Token) :
    elements name (a ++ b) = elements name a ++ elements name b := List.filterMap_append

theorem elements_flatMap {α : Type} (name : String) (f : α → List Token) (l : List α) :
    elements name (l.flatMap f) = l.flatMap fun x => elements name (f x) := by
  induction l with
  | nil => rfl
  | cons x l ih => rw [List.flatMap_cons, elements_append, ih, List.flatMap_cons]

theorem elements_chars (name : String) (s : List Char) : elements name (s.map .char) = [] := by
  induction s with
  | nil => rfl
  | cons c s ih => exact ih

/-- A line of a report: a tag behind some indentation, or a text. -/
inductive Line where
  | declaration
  | start (depth : ℕ) (name : String) (as : List Attribute)
  | empty (depth : ℕ) (name : String) (as : List Attribute)
  | stop (depth : ℕ) (name : String)
  | text (s : String)

namespace Line

/-- The indentation at a depth. -/
def indent (depth : ℕ) : List Char := List.replicate (2 * depth) ' '

/-- The text of the declaration. -/
def declarationText : List Char := "<?xml version=\"1.0\" encoding=\"UTF-8\"?>".toList

/-- The line as it is written. -/
def written : Line → List Char
  | declaration => declarationText
  | start depth name as => indent depth ++ (tagText name.toList as ++ ['>'])
  | empty depth name as => indent depth ++ (tagText name.toList as ++ ['/', '>'])
  | stop depth name => indent depth ++ ('<' :: '/' :: name.toList ++ ['>'])
  | text s => (body s).toList

/-- The tag that an element starts with. -/
def tag (name : String) (as : List Attribute) : Tag := ⟨name.toList, as.map Attribute.entry⟩

/-- The line as it is read. -/
def tokens : Line → List Token
  | declaration => [.declaration (tag "?xml" [.plain "version" "1.0", .plain "encoding" "UTF-8"])]
  | start depth name as => (indent depth).map .char ++ [.start (tag name as)]
  | empty depth name as => (indent depth).map .char ++ [.empty (tag name as)]
  | stop depth name => (indent depth).map .char ++ [.stop name.toList]
  | text s => (body s).toList.map .char

/-- A line whose tag has a proper name and proper attributes. -/
def IsWritten : Line → Prop
  | start _ name as => IsTag name.toList as
  | empty _ name as => IsTag name.toList as
  | stop _ name => IsWord name.toList
  | _ => True

theorem reads_indent (depth : ℕ) : Reads (indent depth) ((indent depth).map .char) :=
  reads_text fun h => absurd (List.eq_of_mem_replicate h) (by decide)

theorem IsWritten.reads {l : Line} (h : l.IsWritten) : Reads l.written l.tokens := by
  cases l with
  | declaration => exact fun ts => rfl
  | start depth name as => exact (reads_indent depth).append (reads_start h)
  | empty depth name as => exact (reads_indent depth).append (reads_empty h)
  | stop depth name =>
    exact (reads_indent depth).append (reads_stop fun hmem => ne_of_isAlpha (h.isAlpha _ hmem) (by decide) rfl)
  | text s => exact reads_text (lt_not_mem_body s)

/-- The element that a line starts, if it has the name. -/
def element? (name : String) : Line → Option Tag
  | start _ n as => if n = name then some (tag n as) else none
  | empty _ n as => if n = name then some (tag n as) else none
  | _ => none

theorem elements_tokens (name : String) (l : Line) :
    elements name l.tokens = (l.element? name).toList := by
  cases l with
  | declaration => rfl
  | start depth n as =>
    rw [tokens, elements_append, elements_chars, List.nil_append]
    by_cases hn : n = name <;> simp [elements, Token.element?, element?, tag, hn, String.toList_inj]
  | empty depth n as =>
    rw [tokens, elements_append, elements_chars, List.nil_append]
    by_cases hn : n = name <;> simp [elements, Token.element?, element?, tag, hn, String.toList_inj]
  | stop depth n =>
    rw [tokens, elements_append, elements_chars, List.nil_append]
    rfl
  | text s => exact elements_chars name _

end Line

end Markup

namespace JUnit

/-! ## The lines of the report -/

/-- The attributes that count test cases. -/
def countAttributes (s : Summary) : List Attribute :=
  [.plain "tests" (toString s.total), .plain "failures" (toString s.failed)]

/-- The attributes of all suites. -/
def suitesAttributes (r : Results) (elapsed : Elapsed) : List Attribute :=
  [.plain "name" "Architecture"] ++ countAttributes r.summary ++
    [.plain "skipped" (toString r.summary.skipped), .plain "time" elapsed.atLeastZero.text]

/-- The attributes of the one suite. -/
def suiteAttributes (r : Results) (elapsed : Elapsed) (stamp : Timestamp) : List Attribute :=
  [.plain "name" "Architecture Validation"] ++ countAttributes r.summary ++
    [.plain "errors" "0", .plain "skipped" (toString r.summary.skipped),
      .plain "time" elapsed.atLeastZero.text,
      .quoted "timestamp" (String.ofList (stamp.text 'T'))]

/-- The attributes of a test case. -/
def caseAttributes (r : RuleResult) : List Attribute :=
  [.quoted "name" r.name, .plain "time" "0"]

/-- The lines of a test case. -/
def caseDocument (r : RuleResult) : List Line :=
  match r.status with
  | .failed =>
    [.start 2 "testcase" (caseAttributes r),
     .start 3 "failure" [.plain "message" s!"{r.violations.length} violation(s)",
       .plain "type" "ArchitectureViolation"],
     .text (failureText r.violations), .stop 3 "failure", .stop 2 "testcase"]
  | .skipped =>
    let message := r.message.getD ""
    [.start 2 "testcase" (caseAttributes r),
     .empty 3 "skipped" [.quoted "message" (if message = "" then skippedMessage else message)],
     .stop 2 "testcase"]
  | _ => [.empty 2 "testcase" (caseAttributes r)]

/-- The lines of the report. -/
def document (r : Results) (elapsed : Elapsed) (stamp : Timestamp) : List Line :=
  [.declaration, .start 0 "testsuites" (suitesAttributes r elapsed),
   .start 1 "testsuite" (suiteAttributes r elapsed stamp)] ++
  r.rules.flatMap caseDocument ++ [.stop 1 "testsuite", .stop 0 "testsuites"]

theorem caseLines_eq_document (r : RuleResult) :
    (caseLines r).map String.toList = (caseDocument r).map Line.written := by
  unfold caseLines caseDocument
  cases r.status <;>
    simp [Line.written, Line.indent, tagText, caseAttributes, Attribute.text_plain,
      Attribute.text_quoted, toString]

theorem lines_eq_document (r : Results) (elapsed : Elapsed) (stamp : Timestamp) :
    (lines r elapsed stamp).map String.toList =
      (document r elapsed stamp).map Line.written := by
  have hcases : (r.rules.flatMap caseLines).map String.toList =
      (r.rules.flatMap caseDocument).map Line.written := by
    simp only [List.map_flatMap, caseLines_eq_document]
  have hdeclaration : Line.declaration.written =
      "<?xml version=\"1.0\" encoding=\"UTF-8\"?>".toList := rfl
  rw [lines, document, List.map_append, List.map_append, hcases, List.map_append,
    List.map_append, List.map_cons, List.map_cons (f := Line.written), hdeclaration]
  simp [Line.written, Line.indent, tagText, suitesAttributes,
    suiteAttributes, countAttributes, Attribute.text_plain, Attribute.text_quoted, toString]

/-! ## Reading the lines -/

theorem isNumeral_of_mem_pointed {places n : ℕ} {c : Char} (h : c ∈ Decimal.pointed places n) :
    Decimal.IsNumeral c := by
  have hdecimal : ∀ width, ∀ c ∈ Text.decimal width n, Decimal.IsNumeral c := by
    intro width c h
    rcases List.mem_append.mp h with h | h
    · rw [List.eq_of_mem_replicate h]
      decide
    · exact Decimal.isNumeral_of_mem_toDigits h
  rcases List.mem_append.mp h with h | h
  · exact hdecimal _ c (List.mem_of_mem_take h)
  · rcases List.mem_cons.mp h with rfl | h
    · decide
    · exact hdecimal _ c (List.mem_of_mem_drop h)

theorem isNumeral_of_mem_sign {negative : Bool} {c : Char}
    (h : c ∈ if negative then ['-'] else []) : Decimal.IsNumeral c := by
  cases negative with
  | false => cases h
  | true => exact .inr (by simp [List.mem_singleton.mp h])

/-- A time is written as a number, or in letters if it is infinite or no number. -/
theorem isNumeral_or_mem_of_mem_time {e : Elapsed} {c : Char} (h : c ∈ e.text.toList) :
    Decimal.IsNumeral c ∨ c ∈ ['i', 'n', 'f', 'a'] := by
  rw [Elapsed.text, String.toList_ofList] at h
  cases hnumber : e.number with
  | finite negative m e =>
    rw [hnumber] at h
    rcases List.mem_append.mp h with h | h
    · exact .inl (isNumeral_of_mem_sign h)
    · exact .inl (isNumeral_of_mem_pointed h)
  | infinite negative =>
    rw [hnumber] at h
    rcases List.mem_append.mp h with h | h
    · exact .inl (isNumeral_of_mem_sign h)
    · exact .inr (List.mem_append_left ['a'] h)
  | nan =>
    rw [hnumber] at h
    simp only [Decimal.Binary64.fixedText, List.mem_cons, List.not_mem_nil, or_false] at h ⊢
    tauto

theorem not_mem_toString {c : Char} (hc : ¬Decimal.IsNumeral c) (n : ℤ) : c ∉ (toString n).toList :=
  fun h => hc (Decimal.isNumeral_of_mem_toString_int h)

theorem not_mem_time {c : Char} (hc : ¬(Decimal.IsNumeral c ∨ c ∈ ['i', 'n', 'f', 'a']))
    (e : Elapsed) : c ∉ e.text.toList :=
  fun h => hc (isNumeral_or_mem_of_mem_time h)

theorem not_mem_violations {c : Char} (hc : ¬Decimal.IsNumeral c)
    (hc' : c ∉ " violation(s)".toList) (n : ℕ) : c ∉ s!"{n} violation(s)".toList := by
  have hdigits : c ∉ Nat.toDigits 10 n := fun h => hc (Decimal.isNumeral_of_mem_toDigits h)
  simpa [toString] using ⟨hdigits, by simpa using hc'⟩

theorem isWritten_case (r : RuleResult) : ∀ l ∈ caseDocument r, l.IsWritten := by
  have hword : IsWord "testcase".toList := by decide
  have htag : IsTag "testcase".toList (caseAttributes r) := by
    refine ⟨hword, by simp [caseAttributes], List.forall_mem_cons.mpr ⟨?_, ?_⟩⟩
    · exact Attribute.isWritten_quoted (by decide) _
    · exact List.forall_mem_singleton.mpr (Attribute.isWritten_plain (by decide) (by decide))
  unfold caseDocument
  split
  · have hfailure : IsTag "failure".toList
        [.plain "message" s!"{r.violations.length} violation(s)",
          .plain "type" "ArchitectureViolation"] := by
      refine ⟨by decide, by simp, List.forall_mem_cons.mpr ⟨?_, ?_⟩⟩
      · exact Attribute.isWritten_plain (by decide) (not_mem_violations (by decide) (by decide) _)
      · exact List.forall_mem_singleton.mpr (Attribute.isWritten_plain (by decide) (by decide))
    simp only [List.forall_mem_cons]
    exact ⟨htag, hfailure, trivial, hfailure.name_word, hword, List.forall_mem_nil _⟩
  · have hskipped : IsTag "skipped".toList
        [.quoted "message" (if r.message.getD "" = "" then skippedMessage else r.message.getD "")] :=
      ⟨by decide, by simp, List.forall_mem_singleton.mpr (Attribute.isWritten_quoted (by decide) _)⟩
    simp only [List.forall_mem_cons]
    exact ⟨htag, hskipped, hword, List.forall_mem_nil _⟩
  · exact List.forall_mem_singleton.mpr htag

theorem isWritten_countAttributes (s : Summary) : ∀ a ∈ countAttributes s, a.IsWritten := by
  refine List.forall_mem_cons.mpr ⟨?_, List.forall_mem_singleton.mpr ?_⟩
  · exact Attribute.isWritten_plain (by decide) (not_mem_toString (by decide) _)
  · exact Attribute.isWritten_plain (by decide) (not_mem_toString (by decide) _)

theorem isTag_suites (r : Results) (elapsed : Elapsed) :
    IsTag "testsuites".toList (suitesAttributes r elapsed) := by
  refine ⟨by decide, by simp [suitesAttributes], ?_⟩
  simp only [suitesAttributes, List.forall_mem_append, List.forall_mem_cons]
  exact ⟨⟨⟨Attribute.isWritten_plain (by decide) (by decide), List.forall_mem_nil _⟩,
    isWritten_countAttributes r.summary⟩,
    Attribute.isWritten_plain (by decide) (not_mem_toString (by decide) _),
    Attribute.isWritten_plain (by decide) (not_mem_time (by decide) _), List.forall_mem_nil _⟩

theorem isTag_suite (r : Results) (elapsed : Elapsed) (stamp : Timestamp) :
    IsTag "testsuite".toList (suiteAttributes r elapsed stamp) := by
  refine ⟨by decide, by simp [suiteAttributes], ?_⟩
  simp only [suiteAttributes, List.forall_mem_append, List.forall_mem_cons]
  exact ⟨⟨⟨Attribute.isWritten_plain (by decide) (by decide), List.forall_mem_nil _⟩,
    isWritten_countAttributes r.summary⟩,
    Attribute.isWritten_plain (by decide) (by decide),
    Attribute.isWritten_plain (by decide) (not_mem_toString (by decide) _),
    Attribute.isWritten_plain (by decide) (not_mem_time (by decide) _),
    Attribute.isWritten_quoted (by decide) _, List.forall_mem_nil _⟩

theorem isWritten_document (r : Results) (elapsed : Elapsed) (stamp : Timestamp) :
    ∀ l ∈ document r elapsed stamp, l.IsWritten := by
  have hsuites := isTag_suites r elapsed
  have hsuite := isTag_suite r elapsed stamp
  simp only [document, List.forall_mem_append, List.forall_mem_cons]
  refine ⟨⟨⟨trivial, hsuites, hsuite, List.forall_mem_nil _⟩, fun l hl => ?_⟩,
    hsuite.name_word, hsuites.name_word, List.forall_mem_nil _⟩
  obtain ⟨result, -, hl⟩ := List.mem_flatMap.mp hl
  exact isWritten_case result l hl

/-- The tokens of a report. -/
def reportTokens (ls : List Line) : List Token := ls.flatMap fun l => l.tokens ++ [.char '\n']

theorem toList_unlines {ls : List String} (h : ls ≠ []) :
    ("\n".intercalate ls ++ "\n").toList = (ls.map String.toList).flatMap (· ++ ['\n']) := by
  induction ls with
  | nil => exact absurd rfl h
  | cons l ls ih =>
    cases ls with
    | nil => simp
    | cons l' ls =>
      rw [String.intercalate_cons_cons, String.append_assoc, String.toList_append, ih (by simp)]
      simp

theorem reads_document {ls : List Line} (h : ∀ l ∈ ls, l.IsWritten) :
    Reads ((ls.map Line.written).flatMap (· ++ ['\n'])) (reportTokens ls) := by
  rw [List.flatMap_map]
  exact Reads.flatMap fun l hl => (h l hl).reads.append (reads_text (by decide))

/-- **The report is read as its lines.** -/
theorem read_text (r : Results) (elapsed : Elapsed) (stamp : Timestamp) :
    read (text r elapsed stamp).toList = some (reportTokens (document r elapsed stamp)) := by
  rw [text, toList_unlines (by simp [lines]), lines_eq_document]
  exact (reads_document (isWritten_document r elapsed stamp)).read_eq

/-! ## Counting elements -/

theorem elements_reportTokens (name : String) (ls : List Line) :
    elements name (reportTokens ls) = ls.filterMap (Line.element? name) := by
  have hline : ∀ l : Line, elements name (l.tokens ++ [.char '\n']) = (l.element? name).toList :=
    fun l => by
      rw [elements_append, Line.elements_tokens]
      exact List.append_nil _
  rw [reportTokens, elements_flatMap, List.filterMap_eq_flatMap_toList]
  simp only [hline]

theorem length_elements_flatMap {α : Type} {f : α → List Line} {name : String} {p : α → Bool}
    (h : ∀ x, ((f x).filterMap (Line.element? name)).length = if p x then 1 else 0) (l : List α) :
    ((l.flatMap f).filterMap (Line.element? name)).length = (l.filter p).length := by
  induction l with
  | nil => rfl
  | cons x l ih =>
    rw [List.flatMap_cons, List.filterMap_append, List.length_append, h, ih]
    cases hp : p x <;> simp [hp, Nat.add_comm]

/-- Whether a result has an element of a name in its test case. -/
def hasElement (name : String) (r : RuleResult) : Bool :=
  name = "testcase" ∨ name = "failure" ∧ r.status = .failed ∨ name = "skipped" ∧ r.status = .skipped

theorem hasElement_failure : hasElement "failure" = fun r => decide (r.status = .failed) := by
  funext r
  simp [hasElement]

theorem hasElement_skipped : hasElement "skipped" = fun r => decide (r.status = .skipped) := by
  funext r
  simp [hasElement]

/-- The elements of a test case follow from the status of its result. -/
theorem length_elements_case (name : String) (r : RuleResult) :
    ((caseDocument r).filterMap (Line.element? name)).length =
      if hasElement name r then 1 else 0 := by
  unfold caseDocument
  by_cases htestcase : name = "testcase"
  · subst htestcase
    cases r.status <;> simp [Line.element?, hasElement]
  by_cases hfailure : name = "failure"
  · subst hfailure
    cases hs : r.status <;> simp [Line.element?, hasElement, hs]
  by_cases hskipped : name = "skipped"
  · subst hskipped
    cases hs : r.status <;> simp [Line.element?, hasElement, hs]
  · cases hs : r.status <;>
      simp [Line.element?, hasElement, htestcase, hfailure, hskipped, Ne.symm htestcase,
        Ne.symm hfailure, Ne.symm hskipped]

variable (r : Results) (elapsed : Elapsed) (stamp : Timestamp)

theorem length_elements_document {name : String} (hsuites : name ≠ "testsuites") (hsuite : name ≠ "testsuite") :
    ((document r elapsed stamp).filterMap (Line.element? name)).length =
      (r.rules.filter (hasElement name)).length := by
  rw [← length_elements_flatMap (length_elements_case name) r.rules]
  simp [document, List.filterMap_cons, Line.element?, hsuites.symm, hsuite.symm]

theorem suites_document :
    (document r elapsed stamp).filterMap (Line.element? "testsuites") =
        [Line.tag "testsuites" (suitesAttributes r elapsed)] ∧
      (document r elapsed stamp).filterMap (Line.element? "testsuite") =
        [Line.tag "testsuite" (suiteAttributes r elapsed stamp)] := by
  have hnone : ∀ name ∈ ["testsuites", "testsuite"],
      (r.rules.flatMap caseDocument).filterMap (Line.element? name) = [] := by
    intro name hname
    rw [← List.length_eq_zero_iff, length_elements_flatMap (length_elements_case name)]
    rcases List.mem_pair.mp hname with rfl | rfl <;> simp [hasElement]
  simp [document, List.filterMap_cons, Line.element?, hnone]

theorem value?_suites :
    ∀ t ∈ [Line.tag "testsuites" (suitesAttributes r elapsed),
        Line.tag "testsuite" (suiteAttributes r elapsed stamp)],
      t.value? "tests" = some (toString r.summary.total) ∧
      t.value? "failures" = some (toString r.summary.failed) ∧
      t.value? "skipped" = some (toString r.summary.skipped) := by
  refine List.forall_mem_cons.mpr ⟨⟨?_, ?_, ?_⟩, List.forall_mem_singleton.mpr ⟨?_, ?_, ?_⟩⟩ <;>
    exact congrArg some String.ofList_toList

theorem length_elements (name : String) (hsuites : name ≠ "testsuites")
    (hsuite : name ≠ "testsuite") :
    (elements name (reportTokens (document r elapsed stamp))).length =
      (r.rules.filter (hasElement name)).length := by
  rw [elements_reportTokens, length_elements_document r elapsed stamp hsuites hsuite]

/-- **The JUnit report of accounted results counts its elements.** -/
theorem isCounted_text {rules : List Rule} (h : r.IsAccounted rules) :
    ∃ tokens, read (text r elapsed stamp).toList = some tokens ∧ IsCounted tokens ∧
      (elements "testcase" tokens).length = r.summary.total ∧
      (elements "failure" tokens).length = r.summary.failed ∧
      (elements "skipped" tokens).length = r.summary.skipped := by
  set tokens := reportTokens (document r elapsed stamp) with htokens
  have htests : ((elements "testcase" tokens).length : ℤ) = r.summary.total := by
    rw [length_elements r elapsed stamp _ (by decide) (by decide), h.total_eq]
    simp [hasElement]
  have hfailures : ((elements "failure" tokens).length : ℤ) = r.summary.failed := by
    rw [length_elements r elapsed stamp _ (by decide) (by decide), h.failed_eq, hasElement_failure]
    rfl
  have hskipped : ((elements "skipped" tokens).length : ℤ) = r.summary.skipped := by
    rw [length_elements r elapsed stamp _ (by decide) (by decide), h.skipped_eq, hasElement_skipped]
    rfl
  obtain ⟨hsuites, hsuite⟩ := suites_document r elapsed stamp
  rw [← elements_reportTokens, ← htokens] at hsuites hsuite
  refine ⟨tokens, read_text r elapsed stamp, ⟨?_, ?_, ?_⟩, htests, hfailures, hskipped⟩
  · rw [hsuites, List.length_singleton]
  · rw [hsuite, List.length_singleton]
  · rw [hsuites, hsuite]
    have hvalues := value?_suites r elapsed stamp
    rw [← htests, ← hfailures, ← hskipped] at hvalues
    exact hvalues

end JUnit

end Layering.Report
