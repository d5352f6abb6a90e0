import Layering.Proofs.Glob.Subtree
import Layering.Rule.Checker

/-!
# What an import rule reports

A rule in use goes through imports and patterns with loops, and keeps the patterns it has compiled.
What it keeps is what it would compile again, so that each loop gives what the patterns alone decide
(`isMatch_fst`, `firstPattern_fst`), and files checked before make no difference to the violations of
a file (`validate_after_fst`).

An import matches a pattern (`Matches`) when the segments of the pattern come first among its own, or,
for a pattern without wildcards, among those of the path that a relative import leads to; a pattern
with wildcards matches what can be derived from it. In these words, the violations of a file are one
for each import that matches a forbidden pattern, then one for each that matches no allowed pattern,
and then one for each required pattern that no import matches, in order (`IsVerdict`). So there are
none exactly if the file keeps to the three constraints (`validate_verdict`).
-/

namespace Layering

open PathText Text

namespace GlobMemo

/-! ## What is kept does not matter -/

variable (m : GlobMemo) (path source : String)

theorem get_fst (pattern : List Char) : (m.get pattern).1 = Glob.compile true pattern := by
  unfold get
  split
  · rename_i g hg
    obtain ⟨before, after, hentries, -⟩ := List.lookup_eq_some_iff.mp hg
    exact m.compiled (pattern, g) (by simp [hentries])
  · rfl

theorem isMatch_fst (pattern : String) :
    (m.isMatch path pattern source).1 = ImportRule.isMatch path pattern source := by
  unfold isMatch
  split
  · rename_i hneeds
    simp only [needsGlob, Bool.and_eq_true, Bool.not_eq_true'] at hneeds
    obtain ⟨⟨hblank, hwritten⟩, hwild⟩ := hneeds
    simp only [ImportRule.isMatch, hblank, hwritten, hwild, get_fst, Bool.false_eq_true, if_false,
      if_true]
  · rfl

theorem firstPattern_fst (patterns : List String) :
    (m.firstPattern path source patterns).1 =
      patterns.find? fun p => ImportRule.isMatch path p source := by
  induction patterns generalizing m with
  | nil => rfl
  | cons p ps ih =>
    rw [firstPattern, isMatch_fst, List.find?_cons]
    cases ImportRule.isMatch path p source with
    | true => rfl
    | false => exact ih _

theorem anyImport_fst (pattern : String) (imports : List ImportRef) :
    (m.anyImport pattern source imports).1 =
      imports.any fun i => ImportRule.isMatch i.path pattern source := by
  induction imports generalizing m with
  | nil => rfl
  | cons i is ih =>
    rw [anyImport, isMatch_fst, List.any_cons]
    cases ImportRule.isMatch i.path pattern source with
    | true => rfl
    | false => exact ih _

end GlobMemo

namespace ImportRule

namespace Checker

variable (r : ImportRule) (source : String) (m : GlobMemo)

theorem forbidden_fst (imports : List ImportRef) :
    (forbidden r source m imports).1 = imports.filterMap fun i =>
      (r.forbidden.find? fun p => isMatch i.path p source).map (r.forbiddenImport source i) := by
  induction imports generalizing m with
  | nil => rfl
  | cons i is ih =>
    rw [forbidden, GlobMemo.firstPattern_fst, ih, List.filterMap_cons]
    cases r.forbidden.find? fun p => isMatch i.path p source <;> rfl

theorem unlisted_fst (imports : List ImportRef) :
    (unlisted r source m imports).1 =
      (imports.filter fun i => !r.allowed.any fun p => isMatch i.path p source).map
        (r.unlistedImport source) := by
  induction imports generalizing m with
  | nil => rfl
  | cons i is ih =>
    rw [unlisted, GlobMemo.firstPattern_fst, ih, List.isSome_find?, List.filter_cons]
    cases r.allowed.any fun p => isMatch i.path p source <;> rfl

theorem missing_fst (imports : List ImportRef) (patterns : List String) :
    (missing r source imports m patterns).1 =
      (patterns.filter fun p => !imports.any fun i => isMatch i.path p source).map
        (r.missingImport source) := by
  induction patterns generalizing m with
  | nil => rfl
  | cons p ps ih =>
    rw [missing, GlobMemo.anyImport_fst, ih, List.filter_cons]
    cases imports.any fun i => isMatch i.path p source <;> rfl

/-- A rule finds the same violations in a file whatever patterns it has kept. -/
theorem validate_fst (k : Checker) (c : Component) : (k.validate c).1 = k.rule.violations c := by
  simp only [validate, violations, forbidden_fst, missing_fst]
  cases k.rule.allowed.isEmpty with
  | true => rfl
  | false => rw [if_neg Bool.false_ne_true, if_neg Bool.false_ne_true, unlisted_fst]

theorem rule_after (k : Checker) (files : List Component) : (k.after files).rule = k.rule := by
  induction files generalizing k with
  | nil => rfl
  | cons c files ih => exact ih (k.validate c).2

theorem validate_after_fst (files : List Component) (c : Component) :
    (((new r).after files).validate c).1 = r.violations c := by
  rw [validate_fst, rule_after]
  rfl

end Checker

/-! ## What matching means -/

/-- A path without the slash at its end. -/
def withoutSlash (p : List Char) : List Char := if p.getLast? = some '/' then p.dropLast else p

theorem directoryPattern_eq_withoutSlash (pattern : List Char) :
    directoryPattern pattern = withoutSlash (slashed pattern) := by
  unfold directoryPattern withoutSlash
  dsimp only
  by_cases hlast : (slashed pattern).getLast? = some '/'
  · rw [if_pos hlast, if_pos (beq_iff_eq.mpr hlast)]
  · rw [if_neg hlast, if_neg fun h => hlast (eq_of_beq h)]

/-- An import in a file matches a pattern. A blank pattern is matched by nothing. -/
inductive Matches (path pattern source : String) : Prop where
  /-- The segments of the pattern come first among those of the import. -/
  | written (hblank : isBlankText pattern.toList = false)
      (hfront : segments (withoutSlash (slashed pattern.toList)) <+: segments (slashed path.toList))
  /-- The import can be derived from a pattern with wildcards. -/
  | derived (hblank : isBlankText pattern.toList = false)
      (hwild : '*' ∈ pattern.toList ∨ '?' ∈ pattern.toList)
      (hderives : Glob.Derives true
        (segments (Glob.trimmed (withoutSlash (slashed pattern.toList))))
        (segments (Glob.trimmed (slashed path.toList))))
  /-- The segments of a pattern without wildcards come first among those of the path that the
  relative import leads to. -/
  | resolved (hblank : isBlankText pattern.toList = false)
      (hplain : '*' ∉ pattern.toList ∧ '?' ∉ pattern.toList)
      (hrelative : path.toList.head? = some '.')
      (hfront : segments (withoutSlash (slashed pattern.toList)) <+:
        segments (target path source).toList)

theorem mem_directoryPattern_iff {pattern : List Char} {c : Char} (hslash : c ≠ '/')
    (hback : c ≠ '\\') : c ∈ directoryPattern pattern ↔ c ∈ pattern := by
  have hslashed : c ∈ slashed pattern ↔ c ∈ pattern := by
    constructor
    · intro hmem
      obtain ⟨d, hd, hdc⟩ := List.mem_map.mp hmem
      split at hdc
      · exact absurd hdc.symm hslash
      · exact hdc ▸ hd
    · exact fun hmem => List.mem_map.mpr ⟨c, hmem, if_neg hback⟩
  rw [← hslashed, directoryPattern]
  split
  · rename_i hlast
    obtain ⟨front, hfront⟩ := List.getLast?_eq_some_iff.mp (eq_of_beq hlast)
    simp [hfront, hslash]
  · rfl

theorem contains_wildcard_iff {pattern : List Char} :
    ((directoryPattern pattern).contains '*' || (directoryPattern pattern).contains '?') = true ↔
      '*' ∈ pattern ∨ '?' ∈ pattern := by
  rw [Bool.or_eq_true, List.contains_iff_mem, List.contains_iff_mem,
    mem_directoryPattern_iff (by decide) (by decide),
    mem_directoryPattern_iff (by decide) (by decide)]

theorem test_directoryPattern_iff {pattern path : List Char} (h : '*' ∈ pattern ∨ '?' ∈ pattern) :
    (Glob.compile true (directoryPattern pattern)).test path = true ↔
      Glob.Derives true (segments (Glob.trimmed (directoryPattern pattern)))
        (segments (Glob.trimmed path)) := by
  have hwild : Glob.hasWildcard (directoryPattern pattern) = true := by
    have hcontains := contains_wildcard_iff.mpr h
    rw [Bool.or_eq_true, List.contains_iff_mem, List.contains_iff_mem] at hcontains
    rw [Glob.hasWildcard, List.any_eq_true]
    rcases hcontains with hmem | hmem
    · exact ⟨'*', hmem, by decide⟩
    · exact ⟨'?', hmem, by decide⟩
  rw [Glob.compile_of_hasWildcard hwild, Glob.test_steps_iff]

theorem toList_target {path source : String} (h : path.toList.head? = some '.') :
    (target path source).toList = resolveFrom source.toList (slashed path.toList) := by
  have hhead : (slashed path.toList).head? = some '.' := by simp [slashed, List.head?_map, h]
  simp [target, hhead]

theorem isMatch_eq_true_iff_or {path pattern source : String} :
    isMatch path pattern source = true ↔ isBlankText pattern.toList = false ∧
      (isUnder (directoryPattern pattern.toList) (slashed path.toList) = true ∨
        ('*' ∈ pattern.toList ∨ '?' ∈ pattern.toList) ∧
          (Glob.compile true (directoryPattern pattern.toList)).test (slashed path.toList) = true ∨
        ¬('*' ∈ pattern.toList ∨ '?' ∈ pattern.toList) ∧ path.toList.head? = some '.' ∧
          isUnder (directoryPattern pattern.toList)
            (resolveFrom source.toList (slashed path.toList)) = true) := by
  simp only [isMatch, ← contains_wildcard_iff]
  generalize ((directoryPattern pattern.toList).contains '*' ||
    (directoryPattern pattern.toList).contains '?') = wild
  split_ifs <;> simp_all

/-- The test of a rule decides whether an import matches a pattern. -/
theorem isMatch_eq_true_iff {path pattern source : String} :
    isMatch path pattern source = true ↔ Matches path pattern source := by
  rw [isMatch_eq_true_iff_or]
  constructor
  · rintro ⟨hblank, hunder | ⟨hwild, htest⟩ | ⟨hplain, hrelative, hunder⟩⟩
    · rw [directoryPattern_eq_withoutSlash] at hunder
      exact .written hblank (isUnder_iff.mp hunder)
    · rw [test_directoryPattern_iff hwild, directoryPattern_eq_withoutSlash] at htest
      exact .derived hblank hwild htest
    · rw [directoryPattern_eq_withoutSlash] at hunder
      refine .resolved hblank (not_or.mp hplain) hrelative ?_
      rw [toList_target hrelative]
      exact isUnder_iff.mp hunder
  · rintro (⟨hblank, hfront⟩ | ⟨hblank, hwild, hderives⟩ | ⟨hblank, hplain, hrelative, hfront⟩)
    · rw [← directoryPattern_eq_withoutSlash] at hfront
      exact ⟨hblank, .inl (isUnder_iff.mpr hfront)⟩
    · rw [← directoryPattern_eq_withoutSlash] at hderives
      exact ⟨hblank, .inr (.inl ⟨hwild, (test_directoryPattern_iff hwild).mpr hderives⟩)⟩
    · rw [← directoryPattern_eq_withoutSlash] at hfront
      rw [toList_target hrelative] at hfront
      exact ⟨hblank, .inr (.inr ⟨not_or.mpr hplain, hrelative, isUnder_iff.mpr hfront⟩)⟩

theorem isMatch_eq_false_iff {path pattern source : String} :
    isMatch path pattern source = false ↔ ¬Matches path pattern source := by
  rw [← isMatch_eq_true_iff, Bool.not_eq_true]

theorem not_matches_of_isBlank {path pattern source : String}
    (h : isBlankText pattern.toList = true) : ¬Matches path pattern source := by
  rintro (⟨hblank, -⟩ | ⟨hblank, -⟩ | ⟨hblank, -⟩) <;> simp [h] at hblank

/-- A pattern without wildcards is matched by its segments alone. -/
theorem matches_plain_iff {path pattern source : String} (hstar : '*' ∉ pattern.toList)
    (hmark : '?' ∉ pattern.toList) :
    Matches path pattern source ↔ isBlankText pattern.toList = false ∧
      (segments (withoutSlash (slashed pattern.toList)) <+: segments (slashed path.toList) ∨
        path.toList.head? = some '.' ∧ segments (withoutSlash (slashed pattern.toList)) <+:
          segments (target path source).toList) := by
  constructor
  · rintro (⟨hblank, hfront⟩ | ⟨-, hwild, -⟩ | ⟨hblank, -, hrelative, hfront⟩)
    · exact ⟨hblank, .inl hfront⟩
    · exact absurd hwild (not_or.mpr ⟨hstar, hmark⟩)
    · exact ⟨hblank, .inr ⟨hrelative, hfront⟩⟩
  · rintro ⟨hblank, hfront | ⟨hrelative, hfront⟩⟩
    · exact .written hblank hfront
    · exact .resolved hblank ⟨hstar, hmark⟩ hrelative hfront

/-! ## Reports in order -/

section Reports

variable {α β : Type} {P : α → Prop} {R : α → β → Prop}

/-- One report for each item that has the property, in the order of the items, and no others. -/
inductive ReportedInOrder (P : α → Prop) (R : α → β → Prop) : List α → List β → Prop where
  | nil : ReportedInOrder P R [] []
  | skip {x : α} {xs : List α} {reports : List β} (hx : ¬P x)
      (hrest : ReportedInOrder P R xs reports) : ReportedInOrder P R (x :: xs) reports
  | report {x : α} {y : β} {xs : List α} {reports : List β} (hx : P x) (hy : R x y)
      (hrest : ReportedInOrder P R xs reports) : ReportedInOrder P R (x :: xs) (y :: reports)

theorem reportedInOrder_filterMap {f : α → Option β} (hnone : ∀ x, f x = none → ¬P x)
    (hsome : ∀ x y, f x = some y → P x ∧ R x y) (xs : List α) :
    ReportedInOrder P R xs (xs.filterMap f) := by
  induction xs with
  | nil => exact .nil
  | cons x xs ih =>
    rw [List.filterMap_cons]
    cases hx : f x with
    | none => exact .skip (hnone x hx) ih
    | some y => exact .report (hsome x y hx).1 (hsome x y hx).2 ih

theorem reportedInOrder_map_filter {q : α → Bool} {g : α → β} (hq : ∀ x, q x = true ↔ P x)
    (hg : ∀ x, R x (g x)) (xs : List α) : ReportedInOrder P R xs ((xs.filter q).map g) := by
  induction xs with
  | nil => exact .nil
  | cons x xs ih =>
    rw [List.filter_cons]
    split
    · rename_i hx
      exact .report ((hq x).mp hx) (hg x) ih
    · rename_i hx
      exact .skip (mt (hq x).mpr hx) ih

theorem ReportedInOrder.eq_nil_iff {xs : List α} {reports : List β}
    (h : ReportedInOrder P R xs reports) : reports = [] ↔ ∀ x ∈ xs, ¬P x := by
  induction h with
  | nil => simp
  | skip hx hrest ih => simp [hx, ih]
  | report hx hy hrest ih => simp [hx]

end Reports

/-! ## The verdict -/

section Verdict

variable (r : ImportRule) (c : Component)

/-- The report of an import that matches a forbidden pattern: it names the first that is matched. -/
def ReportsForbidden (i : ImportRef) (v : Violation) : Prop :=
  ∃ before pattern after, r.forbidden = before ++ pattern :: after ∧
    (∀ p ∈ before, ¬Matches i.path p c.filePath) ∧ Matches i.path pattern c.filePath ∧
    v = { ruleName := r.name
          message := s!"Forbidden import: \"{i.path}\" matches \"{pattern}\""
          file := some c.filePath
          line := i.line
          suggestion := some "Remove this import or add to allowed list"
          relatedFile := some (target i.path c.filePath) }

/-- The report of an import that matches no allowed pattern. -/
def ReportsUnlisted (i : ImportRef) (v : Violation) : Prop :=
  v = { ruleName := r.name
        message := s!"Import not in whitelist: \"{i.path}\""
        file := some c.filePath
        line := i.line
        suggestion := some "Add to may_import_from or use allowed import"
        relatedFile := some (target i.path c.filePath) }

/-- The report of a required pattern that no import matches; it has no line. -/
def ReportsMissing (pattern : String) (v : Violation) : Prop :=
  v = { ruleName := r.name
        message := s!"Missing required import matching \"{pattern}\""
        file := some c.filePath
        line := none
        suggestion := some s!"Add an import that matches \"{pattern}\"" }

/-- The violations of a file: those of forbidden imports, of unlisted imports if there are allowed
patterns, and of missing imports, each in order. -/
def IsVerdict (vs : List Violation) : Prop :=
  ∃ forbidden unlisted missing, vs = forbidden ++ unlisted ++ missing ∧
    ReportedInOrder (fun i => ∃ p ∈ r.forbidden, Matches i.path p c.filePath)
      (r.ReportsForbidden c) c.imports forbidden ∧
    ReportedInOrder (fun i => r.allowed ≠ [] ∧ ∀ p ∈ r.allowed, ¬Matches i.path p c.filePath)
      (r.ReportsUnlisted c) c.imports unlisted ∧
    ReportedInOrder (fun p => ∀ i ∈ c.imports, ¬Matches i.path p c.filePath)
      (r.ReportsMissing c) r.required missing

/-- A file keeps to the constraints of a rule. -/
structure Respects : Prop where
  forbidden : ∀ i ∈ c.imports, ∀ p ∈ r.forbidden, ¬Matches i.path p c.filePath
  allowed : r.allowed ≠ [] → ∀ i ∈ c.imports, ∃ p ∈ r.allowed, Matches i.path p c.filePath
  required : ∀ p ∈ r.required, ∃ i ∈ c.imports, Matches i.path p c.filePath

theorem reportedInOrder_forbidden :
    ReportedInOrder (fun i => ∃ p ∈ r.forbidden, Matches i.path p c.filePath)
      (r.ReportsForbidden c) c.imports (c.imports.filterMap fun i =>
        (r.forbidden.find? fun p => isMatch i.path p c.filePath).map
          (r.forbiddenImport c.filePath i)) := by
  refine reportedInOrder_filterMap (fun i hnone => ?_) (fun i v hsome => ?_) _
  · rw [Option.map_eq_none_iff, List.find?_eq_none] at hnone
    rintro ⟨p, hp, hmatch⟩
    exact hnone p hp (isMatch_eq_true_iff.mpr hmatch)
  · obtain ⟨p, hfind, rfl⟩ := Option.map_eq_some_iff.mp hsome
    obtain ⟨hmatch, before, after, heq, hbefore⟩ := List.find?_eq_some_iff_append.mp hfind
    have hmatch := isMatch_eq_true_iff.mp hmatch
    refine ⟨⟨p, by simp [heq], hmatch⟩, before, p, after, heq, fun q hq => ?_, hmatch, rfl⟩
    exact isMatch_eq_false_iff.mp (by simpa using hbefore q hq)

theorem reportedInOrder_unlisted :
    ReportedInOrder (fun i => r.allowed ≠ [] ∧ ∀ p ∈ r.allowed, ¬Matches i.path p c.filePath)
      (r.ReportsUnlisted c) c.imports (if r.allowed.isEmpty then [] else
        (c.imports.filter fun i => !r.allowed.any fun p => isMatch i.path p c.filePath).map
          (r.unlistedImport c.filePath)) := by
  have hfilter : (if r.allowed.isEmpty then [] else
      (c.imports.filter fun i => !r.allowed.any fun p => isMatch i.path p c.filePath).map
        (r.unlistedImport c.filePath)) =
      (c.imports.filter fun i => !r.allowed.isEmpty &&
        !r.allowed.any fun p => isMatch i.path p c.filePath).map (r.unlistedImport c.filePath) := by
    cases r.allowed.isEmpty <;> simp
  rw [hfilter]
  refine reportedInOrder_map_filter (fun i => ?_) (fun i => ?_) _
  · simp [isMatch_eq_false_iff]
  · rfl

theorem reportedInOrder_missing :
    ReportedInOrder (fun p => ∀ i ∈ c.imports, ¬Matches i.path p c.filePath)
      (r.ReportsMissing c) r.required
      ((r.required.filter fun p => !c.imports.any fun i => isMatch i.path p c.filePath).map
        (r.missingImport c.filePath)) := by
  refine reportedInOrder_map_filter (fun p => ?_) (fun p => ?_) _
  · simp [isMatch_eq_false_iff]
  · rfl

theorem isVerdict_violations : r.IsVerdict c (r.violations c) :=
  ⟨_, _, _, rfl, r.reportedInOrder_forbidden c, r.reportedInOrder_unlisted c,
    r.reportedInOrder_missing c⟩

variable {r c} in
theorem IsVerdict.eq_nil_iff {vs : List Violation} (h : r.IsVerdict c vs) :
    vs = [] ↔ r.Respects c := by
  obtain ⟨forbidden, unlisted, missing, rfl, hforbidden, hunlisted, hmissing⟩ := h
  rw [List.append_eq_nil_iff, List.append_eq_nil_iff, hforbidden.eq_nil_iff,
    hunlisted.eq_nil_iff, hmissing.eq_nil_iff]
  constructor
  · rintro ⟨⟨hforbidden, hunlisted⟩, hmissing⟩
    refine ⟨fun i hi p hp hmatch => hforbidden i hi ⟨p, hp, hmatch⟩, fun hne i hi => ?_,
      fun p hp => ?_⟩
    · by_contra hnone
      exact hunlisted i hi ⟨hne, fun p hp hmatch => hnone ⟨p, hp, hmatch⟩⟩
    · by_contra hnone
      exact hmissing p hp fun i hi hmatch => hnone ⟨i, hi, hmatch⟩
  · rintro ⟨hforbidden, hallowed, hrequired⟩
    refine ⟨⟨?_, ?_⟩, ?_⟩
    · rintro i hi ⟨p, hp, hmatch⟩
      exact hforbidden i hi p hp hmatch
    · rintro i hi ⟨hne, hnone⟩
      obtain ⟨p, hp, hmatch⟩ := hallowed hne i hi
      exact hnone p hp hmatch
    · intro p hp hnone
      obtain ⟨i, hi, hmatch⟩ := hrequired p hp
      exact hnone i hi hmatch

end Verdict

/-- **A rule gives the verdict on a file, whatever files it has checked before:** its violations are
those of forbidden, of unlisted and of missing imports, in this order, and there are none exactly if
the file keeps to the rule. A blank pattern is matched by nothing. A pattern without wildcards, with
backslashes as slashes and without a slash at its end, is matched by imports, or by paths that relative
imports lead to, whose first segments are its own. -/
theorem validate_verdict (r : ImportRule) (earlier : List Component) (c : Component) :
    (((Checker.new r).after earlier).validate c).1 = r.violations c ∧
      r.IsVerdict c (r.violations c) ∧ (r.violations c = [] ↔ r.Respects c) ∧
      ∀ path pattern source : String,
        (isBlankText pattern.toList = true → ¬Matches path pattern source) ∧
        (isBlankText pattern.toList = false → '*' ∉ pattern.toList → '?' ∉ pattern.toList →
          ∀ front, front = (if (slashed pattern.toList).getLast? = some '/' then
              (slashed pattern.toList).dropLast else slashed pattern.toList) →
            (Matches path pattern source ↔ segments front <+: segments (slashed path.toList) ∨
              path.toList.head? = some '.' ∧
                segments front <+: segments (target path source).toList)) := by
  have hverdict := r.isVerdict_violations c
  refine ⟨Checker.validate_after_fst r earlier c, hverdict, hverdict.eq_nil_iff, ?_⟩
  intro path pattern source
  refine ⟨not_matches_of_isBlank, fun hblank hstar hmark front hfront => ?_⟩
  rw [matches_plain_iff hstar hmark, and_iff_right hblank, hfront]
  rfl

end ImportRule

end Layering
