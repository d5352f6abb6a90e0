import Layering.Proofs.Path.Normal
import Layering.Rule.Import

/-!
# Import rules with one plain pattern

A pattern that is not blank and has no wildcard matches the imports at or below it, as they are
written or as the file resolves them (`isMatch_iff`). A rule that forbids one pattern reports the
imports that match it, and a rule that allows only one reports those that do not
(`violations_of_forbidden`, `violations_of_allowed`).
-/

namespace Layering.ImportRule

open PathText Text

/-! ## Matching -/

/-- A pattern that is not blank and has no wildcard. -/
structure IsPlain (pattern : String) : Prop where
  not_blank : isBlankText pattern.toList = false
  star_not_mem : '*' ∉ pattern.toList
  mark_not_mem : '?' ∉ pattern.toList

theorem directoryPattern_eq {p : List Char} (hback : '\\' ∉ p) (h : ∀ s ∈ segments p, s ≠ []) :
    directoryPattern p = p := by
  have hlast : p.getLast? ≠ some '/' := by
    intro hslash
    obtain ⟨front, rfl⟩ := List.getLast?_eq_some_iff.mp hslash
    refine h [] ?_ rfl
    rw [segments_append_slash, segments_nil]
    simp
  simp [directoryPattern, slashed_of_not_mem hback, hlast]

/-- A relative import matches a plain pattern when it lies below the pattern as it is written, or
where it leads. -/
theorem isMatch_iff {path pattern source : String} (h : IsPlain pattern)
    (hdir : directoryPattern pattern.toList = pattern.toList) (hpath : '\\' ∉ path.toList)
    (hrelative : path.toList.head? = some '.') :
    isMatch path pattern source = true ↔
      isUnder pattern.toList path.toList = true ∨
        isUnder pattern.toList (resolveFrom source.toList path.toList) = true := by
  have hwild : (pattern.toList.contains '*' || pattern.toList.contains '?') = false := by
    simpa using ⟨h.star_not_mem, h.mark_not_mem⟩
  simp only [isMatch, h.not_blank, hdir, slashed_of_not_mem hpath, hwild, hrelative]
  cases isUnder pattern.toList path.toList <;> simp

theorem target_eq {path source : String} (hpath : '\\' ∉ path.toList)
    (hrelative : path.toList.head? = some '.') :
    target path source = String.ofList (resolveFrom source.toList path.toList) := by
  simp [target, slashed_of_not_mem hpath, hrelative]

/-! ## Reporting -/

variable {r : ImportRule} {pattern : String}

theorem violations_of_forbidden (hforbidden : r.forbidden = [pattern]) (hallowed : r.allowed = [])
    (hrequired : r.required = []) (c : Component) :
    r.violations c = c.imports.filterMap fun i =>
      if isMatch i.path pattern c.filePath then some (r.forbiddenImport c.filePath i pattern)
      else none := by
  simp only [violations, hforbidden, hallowed, hrequired, List.isEmpty_nil, if_true,
    List.filter_nil, List.map_nil, List.append_nil]
  refine List.filterMap_congr fun i _ => ?_
  cases hmatch : isMatch i.path pattern c.filePath <;> simp [List.find?, hmatch]

theorem violations_of_allowed (hforbidden : r.forbidden = []) (hallowed : r.allowed = [pattern])
    (hrequired : r.required = []) (c : Component) :
    r.violations c = (c.imports.filter fun i => !isMatch i.path pattern c.filePath).map
      (r.unlistedImport c.filePath) := by
  simp [violations, hforbidden, hallowed, hrequired]

/-- A rule that forbids one pattern reports an import as forbidden when it matches the pattern, and
else does not, whatever it allows or requires. -/
theorem forbiddenImport_mem_violations_iff {c : Component} {i : ImportRef}
    (hforbidden : r.forbidden = [pattern]) (hi : i ∈ c.imports) :
    r.forbiddenImport c.filePath i pattern ∈ r.violations c ↔
      isMatch i.path pattern c.filePath = true := by
  constructor
  · intro h
    rw [violations, List.mem_append, List.mem_append] at h
    rcases h with (h | h) | h
    · obtain ⟨j, -, hj⟩ := List.mem_filterMap.mp h
      obtain ⟨p, hp, heq⟩ := Option.map_eq_some_iff.mp hj
      have hmatch := List.find?_some hp
      have hmem : p = pattern := by simpa [hforbidden] using List.mem_of_find?_eq_some hp
      subst hmem
      -- the message of a violation shows the path of its import
      have hpath : j.path = i.path := by
        have hmessage := congrArg (fun v : Violation => v.message.toList) heq
        exact String.toList_inj.mp (by simpa [forbiddenImport, toString] using hmessage)
      rwa [← hpath]
    · split at h
      · cases h
      · obtain ⟨j, -, heq⟩ := List.mem_map.mp h
        have hmessage := congrArg (fun v : Violation => v.message.toList.head?) heq
        simp [forbiddenImport, unlistedImport, toString] at hmessage
    · obtain ⟨p, -, heq⟩ := List.mem_map.mp h
      have hmessage := congrArg (fun v : Violation => v.message.toList.head?) heq
      simp [forbiddenImport, missingImport, toString] at hmessage
  · intro hmatch
    rw [violations]
    refine List.mem_append_left _ (List.mem_append_left _ (List.mem_filterMap.mpr ⟨i, hi, ?_⟩))
    simp [hforbidden, hmatch]

end Layering.ImportRule
