import Layering.Config.Schema
import Layering.Glob.Safety
import Layering.Proofs.Path.Normal

/-!
# Two checks of layer patterns

The shape of a configuration is checked for patterns that hold two dots in a row or begin with a
slash, and a pattern is checked once more before it is compiled. Without two dots in a row, no segment
of a path leads up, so that its normal form does not climb (`climbs_normal_eq_false`); and the normal
form begins with a slash exactly if the path does (`head?_normal_eq_slash_iff`). What is left to the
second check are blank patterns, NULs, backslashes in front and drives
(`fault?_of_leavesProject_eq_false`).
-/

namespace Layering

open PathText Text

namespace Text

theorem occursIn_iff {needle s : List Char} : occursIn needle s = true ↔ needle <:+: s := by
  induction s with
  | nil => simp [occursIn]
  | cons c s ih =>
    rw [occursIn, Bool.or_eq_true, List.isPrefixOf_iff_prefix, ih, List.infix_cons_iff]

end Text

namespace PathText

theorem infix_ofSegments {s : List Char} {ss : List (List Char)} (h : s ∈ ss) :
    s <:+: ofSegments ss := by
  obtain ⟨before, after, rfl⟩ := List.append_of_mem h
  have htail : s <+: ofSegments (s :: after) := by
    cases after with
    | nil => exact List.prefix_rfl
    | cons t after =>
      rw [← List.singleton_append, ofSegments_append (by simp) (by simp), ofSegments_singleton]
      exact List.prefix_append _ _
  rcases eq_or_ne before [] with rfl | hne
  · exact htail.isInfix
  · rw [ofSegments_append hne (by simp)]
    exact htail.isInfix.trans ((List.suffix_cons _ _).trans (List.suffix_append _ _)).isInfix

theorem infix_of_mem_segments {p s : List Char} (h : s ∈ segments p) : s <:+: p := by
  simpa [ofSegments_segments] using infix_ofSegments h

theorem slashed_eq_dot_iff {c : Char} : (if c = '\\' then '/' else c) = '.' ↔ c = '.' := by
  split
  · simp_all
  · rfl

/-- Slashes in the place of backslashes bring no dots. -/
theorem up_infix_of_slashed {p : List Char} (h : up <:+: slashed p) : up <:+: p := by
  obtain ⟨before, after, heq⟩ := h
  obtain ⟨front, back, rfl, hfront, -⟩ := List.map_eq_append_iff.mp heq.symm
  obtain ⟨before', dots, rfl, -, hdots⟩ := List.map_eq_append_iff.mp hfront
  have hup : dots = up := by
    obtain ⟨c, rest, rfl, hc, hrest⟩ := List.map_eq_cons_iff.mp hdots
    obtain ⟨d, rest, rfl, hd, hnil⟩ := List.map_eq_cons_iff.mp hrest
    rw [slashed_eq_dot_iff.mp hc, slashed_eq_dot_iff.mp hd, List.map_eq_nil_iff.mp hnil, up]
  exact ⟨before', back, by rw [hup]⟩

theorem up_not_mem_foldl {ss st : List (List Char)} (hss : up ∉ ss) (hst : up ∉ st)
    (rooted : Bool) : up ∉ ss.foldl (pushSegment rooted) st := by
  induction ss generalizing st with
  | nil => exact hst
  | cons s ss ih =>
    rw [List.mem_cons, not_or] at hss
    refine ih hss.2 ?_
    by_cases hskip : s = [] ∨ s = here
    · simpa [pushSegment, hskip] using hst
    · simp [pushSegment, hskip, Ne.symm hss.1, hss.1, hst]

theorem head?_normal_eq_slash_iff {p : List Char} :
    (normal p).head? = some '/' ↔ p.head? = some '/' := by
  constructor
  · exact fun h => not_not.mp fun hp => isRelative_normal hp h
  · intro h
    obtain ⟨p, rfl⟩ := List.head?_eq_some_iff.mp h
    have hroot : rootSlashes ('/' :: p) ≠ 0 := by
      unfold rootSlashes
      split <;> simp_all
    obtain ⟨n, hn⟩ := Nat.exists_eq_succ_of_ne_zero hroot
    simp [normal, hn, List.replicate_succ]

end PathText

namespace Glob

theorem climbs_eq_isUnder (n : List Char) : climbs n = isUnder up n := rfl

/-- A path whose segments do not lead up does not climb. -/
theorem climbs_normal_eq_false {p : List Char} (h : up ∉ segments p) : climbs (normal p) = false := by
  rw [climbs_eq_isUnder, ← Bool.not_eq_true]
  intro hunder
  by_cases hp : IsRelative p
  · rw [isUnder_normal_iff hp (by decide), segments_of_not_mem (by decide)] at hunder
    exact up_not_mem_foldl h (by simp) false (List.mem_reverse.mp (hunder.subset (by simp)))
  · have hslash := head?_normal_eq_slash_iff.mpr (not_not.mp hp)
    obtain ⟨n, hn⟩ := List.head?_eq_some_iff.mp hslash
    rw [hn] at hunder
    simp [isUnder, up] at hunder

/-- A pattern that is accepted if it neither holds two dots in a row nor begins with a slash. -/
structure IsSafe (p : List Char) : Prop where
  not_blank : isBlankText p = false
  nul_not_mem : '\x00' ∉ p
  no_backslash : p.head? ≠ some '\\'
  no_drive : hasDrive (slashed p) = false

theorem isSafe_iff (p : List Char) : IsSafe p ↔ isBlankText p = false ∧ '\x00' ∉ p ∧
    p.head? ≠ some '\\' ∧ hasDrive (slashed p) = false :=
  ⟨fun h => ⟨h.1, h.2, h.3, h.4⟩, fun h => ⟨h.1, h.2.1, h.2.2.1, h.2.2.2⟩⟩

instance (p : List Char) : Decidable (IsSafe p) := decidable_of_iff _ (isSafe_iff p).symm

theorem head?_slashed_eq_slash_iff {p : List Char} (h : p.head? ≠ some '/') :
    (slashed p).head? = some '/' ↔ p.head? = some '\\' := by
  cases p with
  | nil => simp [slashed]
  | cons c p =>
    have hc : c ≠ '/' := by simpa using h
    by_cases hback : c = '\\' <;> simp [slashed, hback, hc]

variable {s : String}

/-- What the second check refuses of the patterns that the first lets through. -/
theorem fault?_of_leavesProject_eq_false (h : Config.leavesProject s = false) :
    fault? s.toList ≠ some .climbs ∧ (fault? s.toList = none ↔ IsSafe s.toList) := by
  simp only [Config.leavesProject, Bool.or_eq_false_iff, beq_eq_false_iff_ne] at h
  have hup : up ∉ segments (slashed s.toList) := fun hmem =>
    Bool.eq_false_iff.mp h.1 (occursIn_iff.mpr (up_infix_of_slashed (infix_of_mem_segments hmem)))
  have hroot : ((normal (slashed s.toList)).head? == some '/') =
      (s.toList.head? == some '\\') := by
    rw [Bool.eq_iff_iff, beq_iff_eq, beq_iff_eq, head?_normal_eq_slash_iff,
      head?_slashed_eq_slash_iff h.2]
  simp only [fault?, climbs_normal_eq_false hup, hroot, isSafe_iff]
  by_cases hblank : isBlankText s.toList = true
  · simp [hblank]
  by_cases hnul : '\x00' ∈ s.toList
  · simp [hblank, hnul]
  by_cases hback : s.toList.head? = some '\\'
  · simp [hblank, hnul, hback]
  cases hdrive : hasDrive (slashed s.toList) <;> simp [hblank, hnul, hback]

theorem validate_str (purpose s : String) :
    Glob.validate purpose (.str s) = match fault? s.toList with
      | some fault => .error ⟨fault, purpose, s⟩
      | none => .ok s := rfl

/-- The verdict on a pattern that names no place outside of the project. -/
theorem validate_of_leavesProject_eq_false (purpose : String)
    (h : Config.leavesProject s = false) :
    (Glob.validate purpose (.str s) = .ok s ↔ IsSafe s.toList) ∧
      ((∃ e, Glob.validate purpose (.str s) = .error e) ↔ ¬IsSafe s.toList) ∧
      ∀ e, Glob.validate purpose (.str s) = .error e → e.fault ≠ .climbs := by
  obtain ⟨hclimbs, hsafe⟩ := fault?_of_leavesProject_eq_false h
  rw [validate_str, ← hsafe]
  cases hfault : fault? s.toList with
  | none => simp
  | some fault =>
    refine ⟨by simp, by simp, ?_⟩
    rintro e ⟨⟩ rfl
    exact hclimbs hfault

end Glob

end Layering
