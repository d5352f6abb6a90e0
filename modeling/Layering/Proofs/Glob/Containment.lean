import Layering.Proofs.Glob.Safety

/-!
# Patterns that stay inside the project

A path is walked segment by segment: a name leads one level down, `..` one level up, and an empty
segment or `.` nowhere (`descent`). A relative path stays inside the directory it starts from when no
part of it, from its start on, leads to a depth below zero (`StaysInside`). The normal form shows
this at its start only. While the walk stays inside, the stack of segments holds names, as many as
the walk is deep; the first step out of the directory puts `..` on the stack, and nothing takes it
away again (`walk_cases`). So a path leaves the directory at some point exactly if its normal form
begins with `..` (`climbs_normal_iff`), and a pattern is accepted exactly if it is not blank, holds no
NUL, is neither rooted nor on a drive, and stays inside (`validate_eq_ok_iff`).
-/

namespace Layering

open PathText Text

namespace PathText

/-! ## Depth -/

/-- The number of levels that a segment leads down. -/
def descent (s : List Char) : ℤ := if s = [] ∨ s = here then 0 else if s = up then -1 else 1

/-- How deep segments lead, below the directory they start from. -/
def depth (ss : List (List Char)) : ℤ := ss.foldl (fun n s => n + descent s) 0

@[simp] theorem depth_nil : depth [] = 0 := rfl

@[simp] theorem depth_concat (ss : List (List Char)) (s : List Char) :
    depth (ss ++ [s]) = depth ss + descent s := by
  simp [depth]

/-- A path that at no point leads out of the directory it starts from. -/
def StaysInside (p : List Char) : Prop := ∀ front, front <+: segments p → 0 ≤ depth front

/-! ## One segment -/

/-- Once the walk has left the directory, it does not come back. -/
theorem up_mem_pushSegment {st : List (List Char)} (h : up ∈ st) (s : List Char) :
    up ∈ pushSegment false st s := by
  by_cases hskip : s = [] ∨ s = here
  · simpa [pushSegment, hskip] using h
  by_cases hup : s = up
  · subst hup
    obtain ⟨top, below, rfl⟩ := List.exists_cons_of_ne_nil (List.ne_nil_of_mem h)
    rw [pushSegment_up_cons]
    split
    · exact List.mem_cons_self
    · rename_i htop
      exact (List.mem_cons.mp h).resolve_left (Ne.symm htop)
  · simp [pushSegment, hskip, hup, h]

/-- A segment either is the step out of the directory, or changes the number of names as it changes
the depth. -/
theorem pushSegment_cases {st : List (List Char)} (h : up ∉ st) (s : List Char) :
    st = [] ∧ s = up ∨
      up ∉ pushSegment false st s ∧ ((pushSegment false st s).length : ℤ) = st.length + descent s := by
  by_cases hskip : s = [] ∨ s = here
  · exact .inr (by simpa [pushSegment, descent, hskip] using h)
  by_cases hup : s = up
  · subst hup
    cases st with
    | nil => exact .inl ⟨rfl, rfl⟩
    | cons top below =>
      rw [List.mem_cons, not_or] at h
      have hpush : pushSegment false (top :: below) up = below := by
        rw [pushSegment_up_cons, if_neg (Ne.symm h.1)]
      have hdescent : descent up = -1 := by decide
      rw [hpush, hdescent, List.length_cons]
      exact .inr ⟨h.2, by omega⟩
  · refine .inr ?_
    simp only [pushSegment, descent, hskip, hup, if_false, List.mem_cons, not_or, List.length_cons]
    exact ⟨⟨Ne.symm hup, h⟩, by push_cast; rfl⟩

/-! ## A walk -/

/-- **A walk either has left the directory, and shows it in the stack, or has not,** and then the
stack holds as many names as the walk is deep. -/
theorem walk_cases (ss : List (List Char)) :
    up ∈ ss.foldl (pushSegment false) [] ∧ (∃ front, front <+: ss ∧ depth front < 0) ∨
      up ∉ ss.foldl (pushSegment false) [] ∧
        ((ss.foldl (pushSegment false) []).length : ℤ) = depth ss ∧
          ∀ front, front <+: ss → 0 ≤ depth front := by
  induction ss using List.reverseRecOn with
  | nil => exact .inr ⟨by simp, rfl, by simp⟩
  | append_singleton ss s ih =>
    rw [List.foldl_append, List.foldl_cons, List.foldl_nil]
    rcases ih with ⟨hmem, front, hfront, hdepth⟩ | ⟨hmem, hlength, hinside⟩
    · exact .inl ⟨up_mem_pushSegment hmem s, front, hfront.trans (List.prefix_append _ _), hdepth⟩
    rcases pushSegment_cases hmem s with ⟨hnil, rfl⟩ | ⟨hstays, hpush⟩
    · -- the step out of the directory
      refine .inl ⟨by rw [hnil]; decide, ss ++ [up], List.prefix_rfl, ?_⟩
      have hdescent : descent up = -1 := by decide
      rw [hnil, List.length_nil] at hlength
      rw [depth_concat, hdescent]
      omega
    · have hdepth : ((pushSegment false (ss.foldl (pushSegment false) []) s).length : ℤ) =
          depth (ss ++ [s]) := by rw [hpush, hlength, depth_concat]
      refine .inr ⟨hstays, hdepth, fun front hfront => ?_⟩
      rcases List.prefix_concat_iff.mp hfront with rfl | hfront
      · omega
      · exact hinside front hfront

theorem up_mem_stack_iff {p : List Char} : up ∈ stack p ↔ ¬StaysInside p := by
  rcases walk_cases (segments p) with ⟨hmem, front, hfront, hdepth⟩ | ⟨hmem, -, hinside⟩
  · refine iff_of_true hmem fun hinside => ?_
    have := hinside front hfront
    omega
  · exact iff_of_false hmem (not_not.mpr hinside)

end PathText

namespace Glob

/-! ## The start of the normal form -/

/-- **A relative path leaves its directory at some point exactly if its normal form climbs.** -/
theorem climbs_normal_iff {p : List Char} (h : IsRelative p) :
    climbs (normal p) = true ↔ ¬StaysInside p := by
  rw [climbs_eq_isUnder, isUnder_normal_iff h (by decide), segments_of_not_mem (by decide),
    ← up_mem_stack_iff]
  constructor
  · exact fun hfront => List.mem_reverse.mp (hfront.subset (by simp))
  · -- steps upwards stand below the names, so they come first in the path
    obtain ⟨names, k, hst, hnames⟩ := isReduced_stack p
    intro hmem
    rw [hst, List.mem_append] at hmem
    have hk : k ≠ 0 := by
      rintro rfl
      rcases hmem with hmem | hmem
      · exact (hnames up hmem).ne_up rfl
      · simp at hmem
    obtain ⟨k, rfl⟩ := Nat.exists_eq_succ_of_ne_zero hk
    rw [hst, List.reverse_append, List.reverse_replicate, List.replicate_succ]
    exact ⟨List.replicate k up ++ names.reverse, rfl⟩

/-! ## Drives -/

/-- A path on a drive: a letter and a colon, followed by a slash, by nothing, or by nothing but one
line end. -/
def StartsWithDrive (p : List Char) : Prop :=
  ∃ letter rest, p = letter :: ':' :: rest ∧
    ('A' ≤ letter ∧ letter ≤ 'Z' ∨ 'a' ≤ letter ∧ letter ≤ 'z') ∧
    (rest.head? = some '/' ∨ rest = [] ∨ rest = ['\n'])

theorem isAlpha_iff {c : Char} : c.isAlpha = true ↔ 'A' ≤ c ∧ c ≤ 'Z' ∨ 'a' ≤ c ∧ c ≤ 'z' := by
  change (decide ('A' ≤ c ∧ c ≤ 'Z') || (decide ('a' ≤ c) && decide (c ≤ 'z'))) = true ↔ _
  simp

theorem hasDrive_iff {p : List Char} : hasDrive p = true ↔ StartsWithDrive p := by
  unfold hasDrive
  split
  · rename_i letter rest
    simp [StartsWithDrive, isAlpha_iff, or_assoc]
  · rename_i hshape
    refine iff_of_false Bool.false_ne_true ?_
    rintro ⟨letter, rest, rfl, -⟩
    exact hshape letter rest rfl

/-! ## The verdict on a pattern -/

theorem fault?_eq_none_iff {p : List Char} :
    fault? p = none ↔ isBlankText p = false ∧ '\x00' ∉ p ∧ IsRelative (slashed p) ∧
      hasDrive (slashed p) = false ∧ climbs (normal (slashed p)) = false := by
  have hroot : ((normal (slashed p)).head? == some '/') = false ↔ IsRelative (slashed p) := by
    rw [beq_eq_false_iff_ne]
    exact not_congr head?_normal_eq_slash_iff
  rw [← hroot]
  simp only [fault?]
  grind

theorem validate_eq_ok_iff_fault? {purpose s t : String} :
    Glob.validate purpose (.str s) = .ok t ↔ t = s ∧ fault? s.toList = none := by
  rw [validate_str]
  cases fault? s.toList <;> simp [eq_comm]

/-- **A pattern is accepted, and returned unchanged, exactly if it is safe:** it is not blank, holds
no NUL and, with slashes only, is neither rooted nor on a drive and at no point leads out of the
directory it starts from. -/
theorem validate_eq_ok_iff (purpose s t : String) :
    Glob.validate purpose (.str s) = .ok t ↔
      t = s ∧ (∃ c ∈ s.toList, isBlank c = false) ∧ '\x00' ∉ s.toList ∧
        IsRelative (slashed s.toList) ∧ ¬StartsWithDrive (slashed s.toList) ∧
          StaysInside (slashed s.toList) := by
  have hblank : isBlankText s.toList = false ↔ ∃ c ∈ s.toList, isBlank c = false := by
    simp [isBlankText]
  rw [validate_eq_ok_iff_fault?, fault?_eq_none_iff, hblank, ← Bool.not_eq_true (hasDrive _),
    hasDrive_iff]
  refine and_congr_right fun _ => and_congr_right fun _ => and_congr_right fun _ =>
    and_congr_right fun hrelative => and_congr_right fun _ => ?_
  rw [← Bool.not_eq_true, climbs_normal_iff hrelative, not_not]

end Glob

end Layering
