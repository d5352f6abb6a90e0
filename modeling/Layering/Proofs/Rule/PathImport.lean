import Layering.Proofs.Rule.Matching
import Layering.Proofs.Source.Components

/-!
# Imports by path

The analysis of a project and the import rules follow a relative import path each on their own: the
analysis from the directory of the plain path of the importing file, a rule from the directory of its
path as it is. Both come to the same place, behind which the analysis tries a few suffixes
(`plainPath_eq_target_append`). A suffix adds to the last segment or is one more segment, so that a
pattern above the file that is found is a pattern for the place itself (`isUnder_of_prefix_append`).
Hence import rules judge relative imports by the files that they lead to (`path_import_enforced`).
-/

namespace Layering

open PathText Text

namespace Source

theorem slash_in_pathSuffixes :
    ∀ s ∈ pathSuffixes, '/' ∉ s.toList ∨ ∃ t, s.toList = '/' :: t ∧ '/' ∉ t := by
  simp [pathSuffixes]

end Source

namespace PathText

theorem segments_append_of_not_mem {p t last : List Char} {front : List (List Char)}
    (hp : segments p = front ++ [last]) (ht : '/' ∉ t) :
    segments (p ++ t) = front ++ [last ++ t] := by
  have hall : ∀ s ∈ front ++ [last], '/' ∉ s :=
    fun s hs => slash_not_mem_of_mem_segments (hp ▸ hs)
  have hlast : '/' ∉ last ++ t := by simpa [ht] using hall last (by simp)
  rw [← ofSegments_segments p, hp]
  rcases eq_or_ne front [] with rfl | hfront
  · exact segments_of_not_mem hlast
  · rw [ofSegments_append hfront (by simp), ofSegments_singleton, List.append_assoc,
      List.cons_append, segments_append_slash, segments_of_not_mem hlast,
      segments_ofSegments hfront fun s hs => hall s (List.mem_append_left _ hs)]

theorem exists_segments_eq_concat (p : List Char) : ∃ front last, segments p = front ++ [last] :=
  ⟨_, _, (List.dropLast_append_getLast (segments_ne_nil p)).symm⟩

/-- What lies above a path with a suffix, of at most one segment, lies above the path or is it. -/
theorem isUnder_of_prefix_append {dir p s : List Char}
    (hs : '/' ∉ s ∨ ∃ t, s = '/' :: t ∧ '/' ∉ t) (h : dir ++ ['/'] <+: p ++ s) :
    isUnder dir p = true := by
  rw [prefix_slash_iff] at h
  rw [isUnder_iff]
  rcases hs with hs | ⟨t, rfl, ht⟩
  · obtain ⟨front, last, hp⟩ := exists_segments_eq_concat p
    rw [segments_append_of_not_mem hp hs, List.dropLast_concat] at h
    rw [hp]
    exact h.trans (List.prefix_append _ _)
  · rwa [segments_append_slash, segments_of_not_mem ht, List.dropLast_concat] at h

end PathText

namespace Analysis

/-- A pattern above a component: the plain path of the component goes on behind it. -/
def IsAbove (pattern : String) (d : Component) : Prop :=
  pattern.toList ++ ['/'] <+: (plainPath d).toList

variable {a : Analysis} {c d : Component} {i : ImportRef}

/-- The segments of a pattern above a component are neither empty nor `.`. -/
theorem IsAnalyzed.segments_of_isAbove {pattern : String} (h : a.IsAnalyzed)
    (hd : d ∈ a.components) (habove : IsAbove pattern d) :
    ∀ s ∈ segments pattern.toList, s ≠ [] ∧ s ≠ here := by
  intro s hs
  have hsegments := (h.isFilePath d hd).segments_normal
  have hbelow := prefix_slash_iff.mp habove
  have hmem : s ∈ segments (plainPath d).toList :=
    List.mem_of_mem_dropLast (hbelow.subset hs)
  rw [plainPath, String.toList_ofList, hsegments, List.mem_reverse] at hmem
  obtain ⟨names, k, hstack, hnames⟩ := isReduced_stack d.filePath.toList
  rw [hstack, List.mem_append] at hmem
  rcases hmem with hmem | hmem
  · exact ⟨(hnames s hmem).ne_nil, (hnames s hmem).ne_here⟩
  · rw [List.eq_of_mem_replicate hmem]
    decide

/-- The analysis finds a file where the rules see the import lead, behind a suffix. -/
theorem IsAnalyzed.plainPath_eq_target_append (h : a.IsAnalyzed) (hleads : a.Leads c i d)
    (hlanguage : Language.ofPath c.filePath ≠ .python) (hc : '\\' ∉ c.filePath.toList)
    (hi : '\\' ∉ i.path.toList) :
    ∃ s ∈ Source.pathSuffixes, plainPath d = ImportRule.target i.path c.filePath ++ s := by
  have hresolve := hleads.target_eq
  rw [target?, Source.resolve, if_neg hlanguage] at hresolve
  obtain ⟨s, hs, hlookup⟩ := Source.exists_of_firstKnown hresolve
  refine ⟨s, hs, ?_⟩
  have hrelative : IsRelative i.path.toList := by simp [IsRelative, hleads.is_relative]
  rw [h.plainPath_of_lookup hleads.target_mem hlookup, plainPath, String.toList_ofList,
    normal_join_directory_normal (h.isFilePath c hleads.importer_mem) hrelative,
    ImportRule.target_eq hi hleads.is_relative, ImportRule.resolveFrom,
    slashed_of_not_mem hc]

end Analysis

namespace ImportRule

open Analysis

variable {a : Analysis} {c d : Component} {i : ImportRef}

theorem backslash_not_mem_resolveFrom {source path : List Char} (hsource : IsRelative source)
    (hpath : IsRelative path) (hs : '\\' ∉ source) (hp : '\\' ∉ path) :
    '\\' ∉ resolveFrom source path := by
  intro h
  rw [resolveFrom, slashed_of_not_mem hs] at h
  have hjoin := (join_spec (directory_spec hsource).1 hpath).1
  rcases mem_normal hjoin h with h | h | h
  · rcases mem_join h with h | h | h
    · exact hs (mem_directory h)
    · exact hp h
    · exact absurd h (by decide)
  · exact absurd h (by decide)
  · exact absurd h (by decide)

/-- A pattern above the file that an import leads to matches the import. -/
theorem isMatch_of_isAbove {pattern : String} (h : a.IsAnalyzed) (hleads : a.Leads c i d)
    (hlanguage : Language.ofPath c.filePath ≠ .python) (hc : '\\' ∉ c.filePath.toList)
    (hi : '\\' ∉ i.path.toList) (hplain : IsPlain pattern) (habove : IsAbove pattern d) :
    isMatch i.path pattern c.filePath = true := by
  obtain ⟨s, hs, hpath⟩ := h.plainPath_eq_target_append hleads hlanguage hc hi
  rw [target_eq hi hleads.is_relative] at hpath
  have hbelow : pattern.toList ++ ['/'] <+:
      resolveFrom c.filePath.toList i.path.toList ++ s.toList := by
    have habove := habove
    rwa [IsAbove, hpath, String.toList_append, String.toList_ofList] at habove
  have hback : '\\' ∉ pattern.toList := by
    intro hmem
    have hrelative : IsRelative i.path.toList := by simp [IsRelative, hleads.is_relative]
    have hmem := hbelow.subset (List.mem_append_left _ hmem)
    rcases List.mem_append.mp hmem with hmem | hmem
    · exact backslash_not_mem_resolveFrom (h.isFilePath c hleads.importer_mem).isRelative
        hrelative hc hi hmem
    · revert s
      simp [Source.pathSuffixes]
  have hdir : directoryPattern pattern.toList = pattern.toList :=
    directoryPattern_eq hback fun s hs => (h.segments_of_isAbove hleads.target_mem habove s hs).1
  rw [isMatch_iff hplain hdir hi hleads.is_relative]
  exact .inr (isUnder_of_prefix_append (Source.slash_in_pathSuffixes s hs) hbelow)

/-- **Relative imports by path are judged by the files that they lead to.** In the analysis of any
project, let an import of a file that is not Python lead to a file. The plain path of that file is
where the rules see the import lead, with one of the suffixes behind it. So for every plain pattern
above that file, a rule that forbids the pattern reports each occurrence of the import once, and a
rule that allows only the pattern does not report it. -/
theorem path_import_enforced {fs : FileSystem} {root : Path}
    {patterns exclude : Option (List String)} {limit : Value} {notices : List Notice}
    (hfs : fs.root.WellNamed)
    (hrun : Analysis.run fs root patterns exclude limit = (.ok a, notices))
    (hleads : a.Leads c i d) (hlanguage : Language.ofPath c.filePath ≠ .python)
    (hc : '\\' ∉ c.filePath.toList) (hi : '\\' ∉ i.path.toList) :
    d.name ∈ c.dependencies ∧
      (∃ s ∈ Source.pathSuffixes, plainPath d = target i.path c.filePath ++ s) ∧
      ∀ pattern, IsPlain pattern → IsAbove pattern d →
        ∀ before after, c.imports = before ++ i :: after →
          (∀ r : ImportRule, r.forbidden = [pattern] → r.allowed = [] → r.required = [] →
            r.violations c = r.violations { c with imports := before } ++
              r.forbiddenImport c.filePath i pattern ::
                r.violations { c with imports := after }) ∧
          (∀ r : ImportRule, r.forbidden = [] → r.allowed = [pattern] → r.required = [] →
            r.violations c = r.violations { c with imports := before } ++
              r.violations { c with imports := after }) := by
  have h : a.IsAnalyzed := isAnalyzed_of_run hfs hrun
  refine ⟨h.mem_dependencies_of_leads hleads,
    h.plainPath_eq_target_append hleads hlanguage hc hi, ?_⟩
  intro pattern hplain habove before after himports
  have hmatch : isMatch i.path pattern c.filePath = true :=
    isMatch_of_isAbove h hleads hlanguage hc hi hplain habove
  refine ⟨fun r hforbidden hallowed hrequired => ?_, fun r hforbidden hallowed hrequired => ?_⟩
  · simp only [violations_of_forbidden hforbidden hallowed hrequired, himports,
      List.filterMap_append, List.filterMap_cons, hmatch, if_true]
  · simp only [violations_of_allowed hforbidden hallowed hrequired, himports,
      List.filter_append, List.filter_cons, hmatch, Bool.not_true, Bool.false_eq_true, if_false,
      List.map_append]

/-- A project of two directories, one of which imports the other. -/
def twoDirectories : FileSystem where
  root := .dir [("src", .dir [
    ("app", .dir [("index.ts", .file (some ""))]),
    ("ui", .dir [("button.ts", .file (some "import '../app'\n"))])])]
  working := []

/-- Search patterns that find its files, one of them by a detour. -/
def detour : List String := ["src/app/../ui/*.ts", "src/app/*.ts"]

/-- The import of one directory by the other. -/
def appImport : ImportRef := ⟨"../app", some (.number 1)⟩

/-- The components of the project, as they are found. -/
def twoComponents : List Component :=
  [⟨"button", "src/app/../ui/button.ts", "src/app/../ui", "file", "button", [appImport], ["index"]⟩,
    ⟨"index", "src/app/index.ts", "src/app", "file", "index", [], []⟩]

theorem run_twoDirectories : ∃ a notices,
    Analysis.run twoDirectories ⟨0, []⟩ (some detour) (some []) .null = (.ok a, notices) ∧
      a.components = twoComponents := by
  have hfound : Source.matchesOfAll twoDirectories ⟨0, []⟩ detour =
      (.ok [["src", "app", "..", "ui", "button.ts"], ["src", "app", "index.ts"]], []) := by
    rfl
  have hlimit : limitOf .null = .ok defaultLimit := rfl
  obtain ⟨notices, hrun⟩ := run_of_matches hlimit hfound (by decide +kernel)
  exact ⟨_, notices, hrun, by decide +kernel⟩

theorem path_import_enforced_twoDirectories :
    twoDirectories.root.WellNamed ∧ ∃ a notices c d,
      Analysis.run twoDirectories ⟨0, []⟩ (some detour) (some []) .null = (.ok a, notices) ∧
      a.Leads c appImport d ∧ Language.ofPath c.filePath ≠ .python ∧
      IsPlain "src/app" ∧ IsAbove "src/app" d ∧
      plainPath d = target "../app" c.filePath ++ "/index.ts" ∧
      ∀ r : ImportRule, r.forbidden = ["src/app"] → r.allowed = [] → r.required = [] →
        r.violations c = [r.forbiddenImport c.filePath appImport "src/app"] := by
  obtain ⟨a, notices, hrun, hcomponents⟩ := run_twoDirectories
  have hnamed : twoDirectories.root.WellNamed := by decide +kernel
  have hleads : a.Leads twoComponents[0] appImport twoComponents[1] := by
    refine ⟨by simp [hcomponents], by decide +kernel, by decide +kernel, by simp [hcomponents], ?_⟩
    rw [target?, known, hcomponents]
    decide +kernel
  have hplain : IsPlain "src/app" := ⟨by decide +kernel, by decide +kernel, by decide +kernel⟩
  have habove : IsAbove "src/app" twoComponents[1] := by
    rw [IsAbove]
    decide +kernel
  obtain ⟨-, -, hrules⟩ := path_import_enforced hnamed hrun hleads (by decide +kernel)
    (by decide +kernel) (by decide +kernel)
  refine ⟨hnamed, a, notices, _, _, hrun, hleads, by decide +kernel, hplain, habove,
    by decide +kernel, fun r hforbidden hallowed hrequired => ?_⟩
  have hreport := (hrules "src/app" hplain habove [] [] rfl).1 r hforbidden hallowed hrequired
  simpa [violations_of_forbidden hforbidden hallowed hrequired] using hreport

end ImportRule

end Layering
