import Layering.Proofs.Rule.PathImport

/-!
# Imports by dotted name

A relative import by dotted name is followed differently by the analysis of a project and by
the import rules. To the analysis, the dots in front count levels and the other dots separate names, so it
arrives at names without dots below one of the directories above the importing file
(`exists_segments_of_resolveModule`). To a rule, the dotted name is one segment of a path
(`stack_resolveFrom`). A pattern above the file that the import leads to therefore matches the import
only if the directory of the importing file lies below the pattern as well, and then always
(`isMatch_dotted_iff`): no rule reports such an import from outside of the pattern
(`dotted_import_reported_iff`).
-/

namespace Layering

open PathText Text

/-! ## Dotted names -/

namespace Source

theorem exists_hit_of_mem_occurrences {form : Form} {skip place line : ℕ} {lineStart : Bool}
    {found : List Occurrence} {s : List Char} {o : Occurrence}
    (h : o ∈ occurrences form skip place line lineStart found s) :
    o ∈ found ∨ ∃ start t hit, form start t = some hit ∧ o.path = hit.path := by
  induction s generalizing skip place line lineStart found with
  | nil => exact .inl (List.mem_reverse.mp h)
  | cons c s ih =>
    cases skip with
    | succ skip => exact ih h
    | zero =>
      simp only [occurrences] at h
      split at h
      · rename_i hit hform
        rcases ih h with h | h
        · rcases List.mem_cons.mp h with rfl | h
          · exact .inr ⟨lineStart, c :: s, hit, hform, rfl⟩
          · exact .inl h
        · exact .inr h
      · exact ih h

theorem isDottedChar_of_dottedName {c after : Cut} {name : List Char}
    (h : dottedName c = some (name, after)) : ∀ ch ∈ name, isDottedChar ch = true := by
  unfold dottedName at h
  dsimp only at h
  split at h
  · cases h
  · cases h
    exact fun ch hch => List.mem_takeWhile_imp hch

theorem isDottedChar_of_moduleImport {start : Bool} {s : List Char} {hit : Hit}
    (h : moduleImport start s = some hit) : ∀ ch ∈ hit.path, isDottedChar ch = true := by
  unfold moduleImport at h
  split at h
  · cases h
  · dsimp only at h
    split at h
    · simp only [Option.bind_eq_bind, Option.bind_eq_some_iff, Option.pure_def,
        Option.some.injEq] at h
      obtain ⟨_, -, ⟨name, after⟩, hname, _, -, _, -, rfl⟩ := h
      exact isDottedChar_of_dottedName hname
    · simp only [Option.bind_eq_bind, Option.bind_eq_some_iff, Option.pure_def,
        Option.some.injEq] at h
      obtain ⟨_, -, _, -, ⟨name, after⟩, hname, rfl⟩ := h
      exact isDottedChar_of_dottedName hname

theorem isDottedChar_of_mem_imports {text : String} {i : ImportRef}
    (h : i ∈ imports .python text) : ∀ ch ∈ i.path.toList, isDottedChar ch = true := by
  obtain ⟨o, ho, rfl⟩ := List.mem_map.mp h
  obtain ⟨form, hform, ho⟩ := List.mem_flatMap.mp (List.mem_mergeSort.mp ho)
  rw [forms, List.mem_singleton] at hform
  subst hform
  rcases exists_hit_of_mem_occurrences ho with ho | ⟨start, t, hit, hhit, hpath⟩
  · cases ho
  · rw [String.toList_ofList, hpath]
    exact isDottedChar_of_moduleImport hhit

theorem isDottedChar_slash : isDottedChar '/' = false := by decide

theorem isDottedChar_backslash : isDottedChar '\\' = false := by decide

/-! ## Levels -/

theorem above_ofSegments_reverse {st : List (List Char)} (h : ∀ s ∈ st, '/' ∉ s ∧ s ≠ []) (n : ℕ) :
    above n (ofSegments st.reverse) = ofSegments (st.drop n).reverse := by
  induction n generalizing st with
  | zero => rfl
  | succ n ih =>
    cases st with
    | nil =>
      have hnil : above (n + 1) (ofSegments [].reverse) = above n (ofSegments [].reverse) := rfl
      rw [hnil, ih h, List.drop_nil, List.drop_nil]
    | cons s st =>
      obtain ⟨hs, hst⟩ := List.forall_mem_cons.mp h
      rw [above, List.reverse_cons, directory_ofSegments_concat
        (fun t ht => hst t (List.mem_reverse.mp ht)) hs.1, ih hst, List.drop_succ_cons]

/-- A name as a path, with slashes in the place of dots. -/
def dotsToSlashes (bare : List Char) : List Char := bare.map fun c => if c = '.' then '/' else c

theorem dot_not_mem_dotsToSlashes (bare : List Char) : '.' ∉ dotsToSlashes bare := by
  intro h
  obtain ⟨c, -, hc⟩ := List.mem_map.mp h
  split at hc
  · exact absurd hc (by decide)
  · contradiction

theorem backslash_not_mem_dotsToSlashes {bare : List Char}
    (h : ∀ ch ∈ bare, isDottedChar ch = true) : '\\' ∉ dotsToSlashes bare := by
  intro hmem
  obtain ⟨c, hc, heq⟩ := List.mem_map.mp hmem
  split at heq
  · exact absurd heq (by decide)
  · subst heq
    exact absurd (h _ hc) (by simp [isDottedChar_backslash])

/-- Segments without dots are names or empty, and the empty ones do not count. -/
theorem foldl_pushSegment_undotted {ss : List (List Char)} (h : ∀ s ∈ ss, '.' ∉ s ∧ '/' ∉ s)
    (st : List (List Char)) :
    ss.foldl (pushSegment false) st = (ss.filter (· ≠ [])).reverse ++ st := by
  induction ss generalizing st with
  | nil => rfl
  | cons s ss ih =>
    obtain ⟨⟨hdot, hslash⟩, hss⟩ := List.forall_mem_cons.mp h
    rw [List.foldl_cons, ih hss]
    rcases eq_or_ne s [] with rfl | hne
    · simp [pushSegment_nil]
    · have hname : IsName s :=
        ⟨hne, fun hs => hdot (by simp [hs, here]), fun hs => hdot (by simp [hs, up]), hslash⟩
      rw [pushSegment_of_isName hname]
      simp [hne]

/-- The number of levels that a relative name counts: the dots in front of it. -/
def levels (name : List Char) : ℕ := name.length - (name.dropWhile (· = '.')).length

theorem isRelative_ofSegments_reverse {st : List (List Char)} (h : IsReduced st) :
    IsRelative (ofSegments st.reverse) :=
  isRelative_ofSegments fun s hs => h.slash_not_mem s (List.mem_reverse.mp hs)

/-- A segment that a dotted name can hold between its dots. -/
structure IsUndotted (s : List Char) : Prop where
  ne_nil : s ≠ []
  dot_not_mem : '.' ∉ s
  backslash_not_mem : '\\' ∉ s

/-- The path that a name without dots in front leads to from a directory. -/
theorem segments_normal_join_bare {st : List (List Char)} (hst : IsReduced st) {bare : List Char}
    (hbare : ∀ ch ∈ bare, isDottedChar ch = true) (hhead : bare.head? ≠ some '.')
    (hne : bare ≠ []) :
    ∃ names, segments (normal (join (ofSegments st.reverse) (dotsToSlashes bare))) =
        st.reverse ++ names ∧ names ≠ [] ∧ ∀ s ∈ names, IsUndotted s := by
  obtain ⟨ch, bare, rfl⟩ := List.exists_cons_of_ne_nil hne
  have hdot : ch ≠ '.' := by simpa using hhead
  have hslash : ch ≠ '/' := by
    rintro rfl
    exact absurd (hbare '/' List.mem_cons_self) (by simp [isDottedChar_slash])
  have hcons : dotsToSlashes (ch :: bare) = ch :: dotsToSlashes bare := by simp [dotsToSlashes, hdot]
  have hrelative : IsRelative (dotsToSlashes (ch :: bare)) := by simp [IsRelative, hcons, hslash]
  have hundotted : ∀ s ∈ segments (dotsToSlashes (ch :: bare)), '.' ∉ s ∧ '/' ∉ s := fun s hs =>
    ⟨fun hmem => dot_not_mem_dotsToSlashes _ (mem_of_mem_segments hs hmem),
      slash_not_mem_of_mem_segments hs⟩
  obtain ⟨hjoin, hstack⟩ := join_spec (isRelative_ofSegments_reverse hst) hrelative
  rw [stack_ofSegments_reverse hst, foldl_pushSegment_undotted hundotted] at hstack
  set names := (segments (dotsToSlashes (ch :: bare))).filter (· ≠ []) with hnames
  have hnonempty : names ≠ [] := by
    -- the first character of the name stands in one of the segments
    have hmem : ch ∈ ofSegments (segments (dotsToSlashes (ch :: bare))) := by
      rw [ofSegments_segments, hcons]
      exact List.mem_cons_self
    rcases mem_ofSegments hmem with h | ⟨s, hs, hch⟩
    · exact absurd h hslash
    · refine List.ne_nil_of_mem (a := s) (List.mem_filter.mpr ⟨hs, ?_⟩)
      simpa using List.ne_nil_of_mem hch
  refine ⟨names, ?_, hnonempty, fun s hs => ?_⟩
  · rw [segments_normal hjoin, hstack, if_neg (by simp [hnonempty])]
    simp
  · obtain ⟨hs, hne⟩ := List.mem_filter.mp hs
    exact ⟨by simpa using hne, (hundotted s hs).1,
      fun hback => backslash_not_mem_dotsToSlashes hbare (mem_of_mem_segments hs hback)⟩

/-- Where the analysis finds what a relative name leads to: below a directory above the file, and
from there on by names without dots. A name of dots only leads to a file of that directory. -/
theorem exists_segments_of_resolveModule {known : Known} {p : List Char} {name n : String}
    (hp : IsRelative p) (hname : ∀ ch ∈ name.toList, isDottedChar ch = true)
    (h : resolveModule known (String.ofList (normal p)) name = some n) :
    ∃ path names, known.lookup path = some n ∧
      (segments path.toList).dropLast =
        ((stack p).tail.drop (levels name.toList - 1)).reverse ++ names ∧
      (∀ s ∈ names, IsUndotted s) ∧ (name.toList.dropWhile (· = '.') = [] → names = []) := by
  set st := (stack p).tail.drop (levels name.toList - 1) with hst
  have hreduced : IsReduced st := (isReduced_stack p).tail.drop _
  have hbase : above (levels name.toList - 1) (directory (String.ofList (normal p)).toList) =
      ofSegments st.reverse := by
    rw [String.toList_ofList, directory_normal hp, above_ofSegments_reverse]
    exact (isReduced_stack p).tail.slash_not_mem
  simp only [resolveModule] at h
  rw [← levels, hbase] at h
  split at h
  case isTrue hbare =>
    have hinit : IsName "__init__.py".toList := by decide
    obtain ⟨hjoin, hstack⟩ := join_spec (isRelative_ofSegments_reverse hreduced)
      (show IsRelative "__init__.py".toList by simp [IsRelative])
    rw [stack_ofSegments_reverse hreduced, segments_of_not_mem hinit.slash_not_mem,
      List.foldl_cons, List.foldl_nil, pushSegment_of_isName hinit] at hstack
    refine ⟨_, [], h, ?_, by simp, fun _ => rfl⟩
    rw [String.toList_ofList, segments_normal hjoin, hstack, if_neg (by simp), List.reverse_cons,
      List.dropLast_concat, List.append_nil]
  case isFalse hbare =>
    have hne : name.toList.dropWhile (· = '.') ≠ [] := by simpa using hbare
    have hhead : (name.toList.dropWhile (· = '.')).head? ≠ some '.' := by
      intro hdot
      have hnot := List.head?_dropWhile_not (· = '.') name.toList
      simp [hdot] at hnot
    obtain ⟨names, hsegments, hnonempty, hnames⟩ := segments_normal_join_bare hreduced
      (fun ch hch => hname ch ((List.dropWhile_sublist _).subset hch)) hhead hne
    obtain ⟨suffix, hsuffix, hlookup⟩ := exists_of_firstKnown h
    simp only [moduleSuffixes, List.mem_cons, List.not_mem_nil, or_false] at hsuffix
    rcases hsuffix with rfl | rfl
    · refine ⟨_, names.dropLast, hlookup, ?_, fun s hs => hnames s (List.mem_of_mem_dropLast hs),
        fun hdots => absurd hdots hne⟩
      rw [← List.dropLast_append_getLast hnonempty, ← List.append_assoc] at hsegments
      have hfile := segments_append_of_not_mem hsegments (by decide : '/' ∉ ".py".toList)
      rw [String.toList_append, String.toList_ofList]
      exact (congrArg List.dropLast hfile).trans List.dropLast_concat
    · refine ⟨_, names, hlookup, ?_, hnames, fun hdots => absurd hdots hne⟩
      have hslash : "/__init__.py".toList = '/' :: "__init__.py".toList := by decide
      rw [String.toList_append, String.toList_ofList, hslash, segments_append_slash,
        segments_of_not_mem (by decide : '/' ∉ "__init__.py".toList), List.dropLast_concat]
      exact hsegments

end Source

namespace ImportRule

open Analysis Source

/-! ## What the rules see -/

/-- A segment goes on top of a path, or takes away from it. -/
theorem pushSegment_eq_or_suffix (st : List (List Char)) (s : List Char) :
    pushSegment false st s = s :: st ∨ pushSegment false st s <:+ st := by
  by_cases hskip : s = [] ∨ s = here
  · exact .inr (by simp [pushSegment, hskip])
  by_cases hup : s = up
  · subst hup
    cases st with
    | nil => exact .inl (by simp [pushSegment, hskip])
    | cons top below =>
      rw [pushSegment_up_cons]
      split
      · exact .inl rfl
      · exact .inr (List.suffix_cons _ _)
  · exact .inl (by simp [pushSegment, hskip, hup])

/-- Below a path, names without dots do not lead to a segment with one. -/
theorem prefix_of_dot_mem {ss front names : List (List Char)} {s : List Char}
    (hnames : ∀ t ∈ names, IsUndotted t) (hbelow : ss ++ [s] <+: front ++ names) (hs : '.' ∈ s) :
    ss ++ [s] <+: front := by
  rcases List.prefix_or_prefix_of_prefix hbelow (List.prefix_append front names) with h | ⟨t, ht⟩
  · exact h
  · rcases List.eq_nil_or_concat t with rfl | ⟨t, last, rfl⟩
    · rw [← ht, List.append_nil]
    · rw [List.concat_eq_append, ← List.append_assoc] at ht
      have hlast : last = s := (List.append_inj' ht rfl).2 |> List.singleton_inj.mp
      rw [← ht, List.append_assoc, List.prefix_append_right_inj, hlast] at hbelow
      exact absurd hs (hnames s (hbelow.subset (by simp))).dot_not_mem

/-- With a dotted name as one segment behind a directory, nothing above where the name leads becomes
visible that the directory does not lie below itself. -/
theorem prefix_pushSegment_iff {ss st names : List (List Char)} {s : List Char}
    (hs : s.head? = some '.') (hslash : '/' ∉ s) (hnames : ∀ t ∈ names, IsUndotted t)
    (hdots : s.dropWhile (· = '.') = [] → names = []) (hne : ss ≠ [])
    (hbelow : ss <+: (st.drop (levels s - 1)).reverse ++ names) :
    (ss <+: [s] ∨ ss <+: (pushSegment false st s).reverse) ↔ ss <+: st.reverse := by
  have hlast : ∀ front, ss = front ++ [s] → ss <+: st.reverse := by
    rintro front rfl
    exact (prefix_of_dot_mem hnames hbelow (List.mem_of_head? hs)).trans
      (List.reverse_prefix.mpr (List.drop_suffix _ _))
  constructor
  · rintro (h | h)
    · rcases List.prefix_concat_iff.mp (show ss <+: [] ++ [s] from h) with h | h
      · exact hlast [] h
      · exact absurd (List.prefix_nil.mp h) hne
    · rcases pushSegment_eq_or_suffix st s with heq | hsuffix
      · rw [heq, List.reverse_cons] at h
        rcases List.prefix_concat_iff.mp h with h | h
        · exact hlast _ h
        · exact h
      · exact h.trans (List.reverse_prefix.mpr hsuffix)
  · intro h
    refine .inr ?_
    have hconcat : ss <+: (s :: st).reverse := by
      rw [List.reverse_cons]
      exact h.trans (List.prefix_append _ _)
    by_cases hhere : s = here
    · rwa [hhere, pushSegment_here]
    by_cases hup : s = up
    · -- one directory up from here, where the pattern still lies above
      subst hup
      have hlevels : levels up - 1 = 1 := by decide
      rw [hdots (by decide), List.append_nil, hlevels, List.drop_one] at hbelow
      cases st with
      | nil => exact absurd (List.prefix_nil.mp hbelow) hne
      | cons top below =>
        rw [pushSegment_up_cons]
        split
        · exact hconcat
        · exact hbelow
    · have hname : IsName s := ⟨List.ne_nil_of_mem (List.mem_of_head? hs), hhere, hup, hslash⟩
      rwa [pushSegment_of_isName hname]

variable {a : Analysis} {c d : Component} {i : ImportRef} {pattern : String}

theorem isDottedChar_of_leads (h : a.IsAnalyzed) (hleads : a.Leads c i d)
    (hlanguage : Language.ofPath c.filePath = .python) :
    ∀ ch ∈ i.path.toList, isDottedChar ch = true := by
  obtain ⟨text, htext⟩ := h.imports_eq c hleads.importer_mem
  have hi := hleads.import_mem
  rw [htext, hlanguage] at hi
  exact isDottedChar_of_mem_imports hi

/-- What lies between a pattern above the file that an import leads to and the directory of the
importing file. -/
theorem exists_names_of_isAbove (h : a.IsAnalyzed) (hleads : a.Leads c i d)
    (hlanguage : Language.ofPath c.filePath = .python) (habove : IsAbove pattern d) :
    ∃ names, segments pattern.toList <+:
        ((stack c.filePath.toList).tail.drop (levels i.path.toList - 1)).reverse ++ names ∧
      (∀ s ∈ names, IsUndotted s) ∧ (i.path.toList.dropWhile (· = '.') = [] → names = []) := by
  have hresolve := hleads.target_eq
  rw [target?, Source.resolve, if_pos hlanguage] at hresolve
  obtain ⟨path, names, hlookup, hsegments, hnames⟩ := exists_segments_of_resolveModule
    (h.isFilePath c hleads.importer_mem).isRelative (isDottedChar_of_leads h hleads hlanguage)
    hresolve
  refine ⟨names, ?_, hnames⟩
  rw [← hsegments, ← h.plainPath_of_lookup hleads.target_mem hlookup]
  exact prefix_slash_iff.mp habove

theorem stack_resolveFrom (h : a.IsAnalyzed) (hleads : a.Leads c i d)
    (hlanguage : Language.ofPath c.filePath = .python) (hc : '\\' ∉ c.filePath.toList) :
    IsRelative (join (directory (slashed c.filePath.toList)) i.path.toList) ∧
      stack (join (directory (slashed c.filePath.toList)) i.path.toList) =
        pushSegment false (stack c.filePath.toList).tail i.path.toList := by
  have hfile := h.isFilePath c hleads.importer_mem
  have hrelative : IsRelative i.path.toList := by simp [IsRelative, hleads.is_relative]
  have hslash : '/' ∉ i.path.toList := fun hmem => by
    simpa [isDottedChar_slash] using isDottedChar_of_leads h hleads hlanguage _ hmem
  obtain ⟨hjoin, hstack⟩ := join_spec (directory_spec hfile.isRelative).1 hrelative
  rw [slashed_of_not_mem hc, hfile.tail_stack]
  rw [segments_of_not_mem hslash] at hstack
  exact ⟨hjoin, hstack⟩

/-- A pattern above the file that a dotted import leads to matches the import if the directory of
the importing file lies below the pattern as well, and only then. -/
theorem isMatch_dotted_iff (h : a.IsAnalyzed) (hleads : a.Leads c i d)
    (hlanguage : Language.ofPath c.filePath = .python) (hc : '\\' ∉ c.filePath.toList)
    (hplain : IsPlain pattern) (habove : IsAbove pattern d) :
    isMatch i.path pattern c.filePath = true ↔
      isUnder pattern.toList (directory (plainPath c).toList) = true := by
  have hdotted := isDottedChar_of_leads h hleads hlanguage
  have hfile := h.isFilePath c hleads.importer_mem
  obtain ⟨names, hbelow, hnames, hdots⟩ := exists_names_of_isAbove h hleads hlanguage habove
  have hsegments := h.segments_of_isAbove hleads.target_mem habove
  have hback : '\\' ∉ pattern.toList := by
    intro hmem
    rw [← ofSegments_segments pattern.toList] at hmem
    rcases mem_ofSegments hmem with hmem | ⟨s, hs, hmem⟩
    · exact absurd hmem (by decide)
    · rcases List.mem_append.mp (hbelow.subset hs) with hs | hs
      · have hs := List.mem_of_mem_tail (List.mem_of_mem_drop (List.mem_reverse.mp hs))
        rcases mem_stack hs with hs | rfl
        · exact hc (mem_of_mem_segments hs hmem)
        · exact absurd hmem (by decide)
      · exact (hnames s hs).backslash_not_mem hmem
  have hslash : '/' ∉ i.path.toList := fun hmem => by
    simpa [isDottedChar_slash] using hdotted _ hmem
  have hpath : '\\' ∉ i.path.toList := fun hmem => by
    simpa [isDottedChar_backslash] using hdotted _ hmem
  have hdir : directoryPattern pattern.toList = pattern.toList :=
    directoryPattern_eq hback fun s hs => (hsegments s hs).1
  obtain ⟨hrelative, hstack⟩ := stack_resolveFrom h hleads hlanguage hc
  rw [isMatch_iff hplain hdir hpath hleads.is_relative, isUnder_iff, segments_of_not_mem hslash,
    resolveFrom, isUnder_normal_iff hrelative fun s hs => (hsegments s hs).2, hstack,
    prefix_pushSegment_iff hleads.is_relative hslash hnames hdots (segments_ne_nil _) hbelow,
    plainPath, String.toList_ofList, directory_normal hfile.isRelative,
    isUnder_ofSegments_iff fun s hs => (hsegments s hs).1]
  exact fun s hs => ((isReduced_stack _).tail.slash_not_mem s (List.mem_reverse.mp hs)).1

/-- **Dotted imports are reported only within a pattern.** In the analysis of any project, let a
relative import of a Python file lead to a file, which makes the one depend on the other. For every
plain pattern above the file that the import leads to, a rule that forbids the pattern reports
the import if the directory of the importing file lies below the pattern too, and does not report it
otherwise. -/
theorem dotted_import_reported_iff {fs : FileSystem} {root : Path}
    {patterns exclude : Option (List String)} {limit : Value} {notices : List Notice}
    (hfs : fs.root.WellNamed)
    (hrun : Analysis.run fs root patterns exclude limit = (.ok a, notices))
    (hleads : a.Leads c i d) (hlanguage : Language.ofPath c.filePath = .python)
    (hc : '\\' ∉ c.filePath.toList) :
    d.name ∈ c.dependencies ∧
      ∀ pattern, IsPlain pattern → IsAbove pattern d →
        ∀ r : ImportRule, r.forbidden = [pattern] →
          (r.forbiddenImport c.filePath i pattern ∈ r.violations c ↔
            isUnder pattern.toList (directory (plainPath c).toList) = true) := by
  have h : a.IsAnalyzed := isAnalyzed_of_run hfs hrun
  refine ⟨h.mem_dependencies_of_leads hleads, fun pattern hplain habove r hforbidden => ?_⟩
  rw [forbiddenImport_mem_violations_iff hforbidden hleads.import_mem]
  exact isMatch_dotted_iff h hleads hlanguage hc hplain habove

/-- A project of two packages, one of which imports from the other. -/
def twoPackages : FileSystem where
  root := .dir [("src", .dir [
    ("domain", .dir [("user.py", .file (some "from ..ui.button import Button\n"))]),
    ("ui", .dir [("button.py", .file (some ""))])])]
  working := []

/-- The import of one package by the other. -/
def buttonImport : ImportRef := ⟨"..ui.button", some (.number 1)⟩

/-- The components of the project, as they are found. -/
def twoModules : List Component :=
  [⟨"user", "src/domain/user.py", "src/domain", "file", "user", [buttonImport], ["button"]⟩,
    ⟨"button", "src/ui/button.py", "src/ui", "file", "button", [], []⟩]

theorem run_twoPackages : ∃ a notices,
    Analysis.run twoPackages ⟨0, []⟩ (some ["src/*/*.py"]) (some []) .null = (.ok a, notices) ∧
      a.components = twoModules := by
  have hfound : Source.matchesOfAll twoPackages ⟨0, []⟩ ["src/*/*.py"] =
      (.ok [["src", "domain", "user.py"], ["src", "ui", "button.py"]], []) := by
    rfl
  have hlimit : limitOf .null = .ok defaultLimit := rfl
  obtain ⟨notices, hrun⟩ := run_of_matches hlimit hfound (by decide +kernel)
  exact ⟨_, notices, hrun, by decide +kernel⟩

theorem dotted_import_unreported_twoPackages :
    twoPackages.root.WellNamed ∧ ∃ a notices c d,
      Analysis.run twoPackages ⟨0, []⟩ (some ["src/*/*.py"]) (some []) .null = (.ok a, notices) ∧
      a.Leads c buttonImport d ∧ Language.ofPath c.filePath = .python ∧
      IsPlain "src/ui" ∧ IsAbove "src/ui" d ∧ d.name ∈ c.dependencies ∧
      ∀ r : ImportRule, r.forbidden = ["src/ui"] →
        r.forbiddenImport c.filePath buttonImport "src/ui" ∉ r.violations c := by
  obtain ⟨a, notices, hrun, hcomponents⟩ := run_twoPackages
  have hnamed : twoPackages.root.WellNamed := by decide +kernel
  have hleads : a.Leads twoModules[0] buttonImport twoModules[1] := by
    refine ⟨by simp [hcomponents], by decide +kernel, by decide +kernel, by simp [hcomponents], ?_⟩
    rw [target?, known, hcomponents]
    decide +kernel
  have hplain : IsPlain "src/ui" := ⟨by decide +kernel, by decide +kernel, by decide +kernel⟩
  have habove : IsAbove "src/ui" twoModules[1] := by
    rw [IsAbove]
    decide +kernel
  obtain ⟨hdepends, hrules⟩ := dotted_import_reported_iff hnamed hrun hleads (by decide +kernel)
    (by decide +kernel)
  refine ⟨hnamed, a, notices, _, _, hrun, hleads, by decide +kernel, hplain, habove, hdepends,
    fun r hforbidden hreport => ?_⟩
  have hunder := (hrules "src/ui" hplain habove r hforbidden).mp hreport
  revert hunder
  decide +kernel

end ImportRule

end Layering
