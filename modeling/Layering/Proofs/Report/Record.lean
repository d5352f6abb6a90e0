import Layering.Proofs.Json.Object
import Layering.Report.Record

/-!
# The text of the JSON report

A record is written as an object with its members one below the other (`printAt_record`). The JSON
report is such an object, with the counts of the results in its second member (`toList_text`).
-/

namespace Layering

namespace Json

open Text

/-! ## Objects over several lines -/

/-- The start of a line at a depth. -/
def lineStart (depth : ℕ) : List Char := '\n' :: List.replicate (2 * depth) ' '

/-- A member of an object: a name that is written as it stands, and what is written behind it. -/
def namedText (m : String × List Char) : List Char :=
  '"' :: m.1.toList ++ '"' :: ':' :: ' ' :: m.2

/-- An object with its members one below the other. -/
def objectText (depth : ℕ) (members : List (String × List Char)) : List Char :=
  '\x7b' :: joinWith [','] (members.map fun m => lineStart (depth + 1) ++ namedText m) ++
    (lineStart depth ++ ['\x7d'])

/-- Whether a name has letters only. -/
def isAlphaName (name : String) : Bool := name.toList.all Char.isAlpha

theorem escapeChar_of_isAlpha (layout : Layout) {c : Char} (h : c.isAlpha = true) :
    escapeChar layout c = [c] := by
  have hne : ∀ d : Char, d.isAlpha = false → c ≠ d := by
    rintro d hd rfl
    exact Bool.false_ne_true (hd.symm.trans h)
  have hrange : ¬c.toNat < 0x20 ∧ c.toNat < 0x7f := by
    rcases Bool.or_eq_true_iff.mp h with h | h
    · have hupper : 'A'.val ≤ c.val ∧ c.val ≤ 'Z'.val := of_decide_eq_true h
      rw [UInt32.le_iff_toNat_le, UInt32.le_iff_toNat_le] at hupper
      change 65 ≤ c.toNat ∧ c.toNat ≤ 90 at hupper
      omega
    · have hlower : 'a'.val ≤ c.val ∧ c.val ≤ 'z'.val :=
        (Bool.and_eq_true_iff.mp h).imp of_decide_eq_true of_decide_eq_true
      rw [UInt32.le_iff_toNat_le, UInt32.le_iff_toNat_le] at hlower
      change 97 ≤ c.toNat ∧ c.toNat ≤ 122 at hlower
      omega
  simp [escapeChar, hne, hrange]

theorem printString_of_isAlpha (layout : Layout) {s : List Char} (h : s.all Char.isAlpha = true) :
    printString layout s = '"' :: s ++ ['"'] := by
  have hself : s.flatMap (escapeChar layout) = s := by
    induction s with
    | nil => rfl
    | cons c s ih =>
      rw [List.all_cons, Bool.and_eq_true] at h
      rw [List.flatMap_cons, escapeChar_of_isAlpha layout h.1, ih h.2, List.singleton_append]
  rw [printString, hself]

theorem joinWith_map_append (sep line : List Char) {ms : List (List Char)} (h : ms ≠ []) :
    joinWith sep (ms.map (line ++ ·)) = line ++ joinWith (sep ++ line) ms := by
  induction ms with
  | nil => exact absurd rfl h
  | cons m ms ih =>
    cases ms with
    | nil => rfl
    | cons m' ms =>
      have hjoin := ih (by simp)
      simp only [List.map_cons, joinWith] at hjoin ⊢
      rw [hjoin]
      simp

theorem enclose_pretty (depth : ℕ) (left right : Char) {ms : List (List Char)} (h : ms ≠ []) :
    enclose pretty depth left right ms =
      left :: joinWith [','] (ms.map (lineStart (depth + 1) ++ ·)) ++
        (lineStart depth ++ [right]) := by
  obtain ⟨m, ms, rfl⟩ := List.exists_cons_of_ne_nil h
  have henclose : enclose pretty depth left right (m :: ms) =
      left :: lineStart (depth + 1) ++
        joinWith ([','] ++ lineStart (depth + 1)) (m :: ms) ++ lineStart depth ++ [right] := rfl
  rw [henclose, joinWith_map_append [','] (lineStart (depth + 1)) h]
  simp

/-- A record of plain names is written with its members one below the other. -/
theorem printAt_record (depth : ℕ) {fields : List (String × Value)} (hne : fields ≠ [])
    (hnames : (fields.map (·.1)).all isAlphaName = true) :
    printAt pretty depth (.record fields) =
      objectText depth (fields.map fun f => (f.1, printAt pretty (depth + 1) f.2)) := by
  have hprint : printAt pretty depth (.record fields) = enclose pretty depth '\x7b' '\x7d'
      (fields.map fun f => namedText (f.1, printAt pretty (depth + 1) f.2)) := by
    have harrange : ∀ ms, arrange pretty ms = ms := fun _ => rfl
    rw [Value.record, printAt, harrange, printEntries_eq_map, List.map_map, List.map_map]
    refine congrArg _ (List.map_congr_left fun f hf => ?_)
    have hname : isAlphaName f.1 = true := List.all_eq_true.mp hnames f.1 (List.mem_map_of_mem hf)
    simp [keyText, printString_of_isAlpha pretty hname, namedText]
  rw [hprint, enclose_pretty _ _ _ (by simpa using hne), objectText, List.map_map, List.map_map]
  rfl

end Json

namespace Report.Record

open Json

/-- The JSON report: the counts of the results stand in its summary. -/
theorem toList_text (R : Results) (elapsed : Elapsed) :
    (text R elapsed).toList = objectText 0 [
      ("version", "\"1.0.0\"".toList),
      ("summary", objectText 1 [
        ("total", (toString R.summary.total).toList),
        ("passed", (toString R.summary.passed).toList),
        ("failed", (toString R.summary.failed).toList),
        ("skipped", (toString R.summary.skipped).toList),
        ("violations", (toString R.summary.violations).toList),
        ("duration", printAt pretty 2 elapsed.atLeastZero.value),
        ("exitCode", (toString R.exitCode).toList)]),
      ("rules", printAt pretty 1 (.list (R.rules.map RuleResult.value)))] := by
  have hversion : printAt pretty 1 (.str version) = "\"1.0.0\"".toList := by decide
  have hnames : ["version", "summary", "rules"].all isAlphaName = true := by decide
  have hcounts : ["total", "passed", "failed", "skipped", "violations", "duration",
      "exitCode"].all isAlphaName = true := by decide
  rw [text, String.toList_ofList, print, value, printAt_record 0 (by simp) (by exact hnames)]
  simp only [List.map_cons, List.map_nil, hversion]
  rw [printAt_record 1 (by simp) (by exact hcounts)]
  simp only [List.map_cons, List.map_nil, printAt, printScalar]
  rfl

end Report.Record

end Layering
