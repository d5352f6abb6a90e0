import Layering.Proofs.Files.Names
import Layering.Proofs.List.Repetition
import Layering.Proofs.Text.Surrogate
import Layering.Source.Analysis
import Mathlib.Data.List.Nodup
import Mathlib.Data.List.Perm.Subperm

/-!
# The components of an analysis

An analysis makes a component of each file that it reads. No two components have the same name, since
a base with a number is tried for every name that is taken (`freshName_not_mem`, `nodup_readAll`). The
path of a component is the path of a file and tells its language (`isSource_draftOf`). Its
dependencies are the names of the components that its relative imports lead to (`IsAnalyzed`), and as
names differ an import leads to the component at the path that was looked up
(`IsAnalyzed.plainPath_of_lookup`).
-/

namespace Layering

open PathText

/-! ## Names of paths -/

theorem Path.name_parse {p : String} {front : List (List Char)} {last : List Char}
    (hp : segments p.toList = front ++ [last]) (hlast : IsName last) :
    (Path.parse p).name = String.ofList last := by
  have hkept : decide (last ≠ [] ∧ last ≠ here) = true := by
    simpa using ⟨hlast.ne_nil, hlast.ne_here⟩
  simp only [Path.name, Path.parse, hp, List.filter_append, List.map_append,
    List.filter_singleton, hkept, cond_true, List.map_singleton]
  simp

theorem Path.suffix_eq_of_name_eq {p q : Path} (h : p.name = q.name) : p.suffix = q.suffix := by
  simp only [Path.suffix, Path.splitName, h]

/-! ## The order of names -/

theorem Path.namesPrecede_trans {a b c : List String} (hab : namesPrecede a b = true)
    (hbc : namesPrecede b c = true) : namesPrecede a c = true :=
  decide_eq_true (List.le_trans (of_decide_eq_true hab) (of_decide_eq_true hbc))

theorem Path.namesPrecede_total (a b : List String) :
    namesPrecede a b = true ∨ namesPrecede b a = true :=
  (List.le_total (a.map Text.codePoints) (b.map Text.codePoints)).imp decide_eq_true decide_eq_true

/-- Names that come before each other are the same, as the numbers of their characters are. -/
theorem Path.eq_of_namesPrecede {a b : List String} (hab : namesPrecede a b = true)
    (hba : namesPrecede b a = true) : a = b :=
  (List.map_inj_right fun _ _ => Text.codePoints_injective).mp
    (List.le_antisymm (of_decide_eq_true hab) (of_decide_eq_true hba))

/-! ## Files that are found -/

namespace Source

theorem mem_of_mem_select {exclude : List String} {found : List (List String)}
    {names : List String} (h : names ∈ select exclude found) : names ∈ found :=
  List.mem_of_mem_filter (List.mem_mergeSort.mp (mem_of_mem_eraseReps h))

/-- Files that are in order already are kept as they are, apart from repetitions. -/
theorem select_nil_of_pairwise {found : List (List String)}
    (h : found.Pairwise fun a b => Path.namesPrecede a b = true) :
    select [] found = found.eraseReps := by
  have hkept : found.filter (fun _ => true) = found := List.filter_true found
  simp only [select, List.map_nil, List.filter_nil, List.any_nil, Bool.not_false, hkept,
    List.mergeSort_of_pairwise h]

theorem isFileNames_of_mem_matchesOf {fs : FileSystem} {root : Path} {pattern : String}
    {found : List (List String)} {notices : List Notice} {names : List String}
    (hfs : fs.root.WellNamed) (h : matchesOf fs root pattern = (.ok found, notices))
    (hnames : names ∈ found) : IsFileNames names := by
  unfold matchesOf at h
  split at h
  · cases h
    cases hnames
  · split at h
    · exact Search.isFileNames_of_mem_files hfs (congrArg Prod.fst h) hnames
    · cases h
      cases hnames
    · cases h

theorem isFileNames_of_mem_matchesOfAll {fs : FileSystem} {root : Path} {patterns : List String}
    {found : List (List String)} {notices : List Notice} {names : List String}
    (hfs : fs.root.WellNamed) (h : matchesOfAll fs root patterns = (.ok found, notices))
    (hnames : names ∈ found) : IsFileNames names := by
  induction patterns generalizing found notices with
  | nil =>
    cases h
    cases hnames
  | cons p ps ih =>
    rw [matchesOfAll] at h
    split at h
    · cases h
    · rename_i first _ hfirst
      cases hrest : matchesOfAll fs root ps with
      | mk more others =>
        rw [hrest] at h
        cases more with
        | error e => cases h
        | ok rest =>
          cases h
          rcases List.mem_append.mp hnames with hnames | hnames
          · exact isFileNames_of_mem_matchesOf hfs hfirst hnames
          · exact ih hrest hnames

theorem isFileNames_of_mem_discover {fs : FileSystem} {root : Path} {patterns exclude : List String}
    {files : List (List String)} {notices : List Notice} {names : List String}
    (hfs : fs.root.WellNamed) (h : discover fs root patterns exclude = (.ok files, notices))
    (hnames : names ∈ files) : IsFileNames names := by
  unfold discover at h
  cases hall : matchesOfAll fs root patterns with
  | mk result others =>
    rw [hall] at h
    cases result with
    | error e => cases h
    | ok found =>
      cases h
      exact isFileNames_of_mem_matchesOfAll hfs hall (mem_of_mem_select hnames)

theorem pairwise_mergeSort_names (found : List (List String)) :
    (found.mergeSort Path.namesPrecede).Pairwise fun a b => Path.namesPrecede a b = true := by
  refine List.pairwise_mergeSort (fun a b c hab hbc => ?_) (fun a b => ?_) found
  · exact Path.namesPrecede_trans hab hbc
  · exact Bool.or_eq_true_iff.mpr (Path.namesPrecede_total a b)

theorem nodup_select (exclude : List String) (found : List (List String)) :
    (select exclude found).Nodup := by
  have : Std.Antisymm fun a b => Path.namesPrecede a b = true :=
    ⟨fun _ _ => Path.eq_of_namesPrecede⟩
  exact nodup_eraseReps (pairwise_mergeSort_names _)

theorem nodup_discover {fs : FileSystem} {root : Path} {patterns exclude : List String}
    {files : List (List String)} {notices : List Notice}
    (h : discover fs root patterns exclude = (.ok files, notices)) : files.Nodup := by
  unfold discover at h
  cases hall : matchesOfAll fs root patterns with
  | mk result others =>
    rw [hall] at h
    cases result with
    | error e => cases h
    | ok found =>
      cases h
      exact nodup_select exclude found

theorem exists_of_firstKnown {known : Known} {base : List Char} {suffixes : List String}
    {name : String} (h : firstKnown known base suffixes = some name) :
    ∃ s ∈ suffixes, known.lookup (String.ofList base ++ s) = some name :=
  List.exists_of_findSome?_eq_some h

/-- An import leads to what is known at some path. -/
theorem exists_lookup_of_resolve {language : Language} {known : Known} {source path name : String}
    (h : resolve language known source path = some name) : ∃ p, known.lookup p = some name := by
  unfold resolve at h
  split at h
  · unfold resolveModule at h
    dsimp only at h
    split at h
    · exact ⟨_, h⟩
    · obtain ⟨s, -, hlookup⟩ := exists_of_firstKnown h
      exact ⟨_, hlookup⟩
  · obtain ⟨s, -, hlookup⟩ := exists_of_firstKnown h
    exact ⟨_, hlookup⟩

end Source

namespace Analysis

/-! ## Fresh names -/

theorem numbered_injective (base : String) : Function.Injective fun k : ℕ => s!"{base}_{k + 1}" := by
  intro k l h
  have h : s!"{base}_{k + 1}" = s!"{base}_{l + 1}" := h
  have hrepr : (k + 1).repr = (l + 1).repr := by
    simpa [toString, String.append_assoc] using h
  have hdigits : Nat.toDigits 10 (k + 1) = Nat.toDigits 10 (l + 1) := by
    rw [← Nat.toList_repr, ← Nat.toList_repr, hrepr]
  have hvalue := congrArg (Nat.ofDigitChars 10 · 0) hdigits
  simpa using hvalue

theorem numbered_ne (base : String) (k : ℕ) : s!"{base}_{k + 1}" ≠ base := by
  intro h
  have hlength := congrArg String.length h
  simp only [toString, String.length_append] at hlength
  have hmark : "_".length = 1 := rfl
  omega

/-- A fresh name is not taken: there are as many numbers to try as there are names, and one of the
names is the base. -/
theorem freshName_not_mem (taken : List String) (base : String) : freshName taken base ∉ taken := by
  unfold freshName
  split
  · rename_i hbase
    have hbase : base ∈ taken := by simpa using hbase
    set numbered := (List.range taken.length).map fun k => s!"{base}_{k + 1}" with hnumbered
    have hfree : ∃ n ∈ numbered, n ∉ taken := by
      by_contra hall
      push Not at hall
      have hnodup : (base :: numbered).Nodup := by
        refine List.nodup_cons.mpr ⟨?_, (List.nodup_range).map (numbered_injective base)⟩
        rw [hnumbered, List.mem_map]
        rintro ⟨k, -, hk⟩
        exact numbered_ne base k hk
      have hsub : base :: numbered ⊆ taken := List.cons_subset.mpr ⟨hbase, hall⟩
      have hlength := (hnodup.subperm hsub).length_le
      simp only [hnumbered, List.length_cons, List.length_map, List.length_range] at hlength
      omega
    obtain ⟨n, hn, hfree⟩ := hfree
    cases hfind : numbered.find? fun n => !taken.contains n with
    | none =>
      rw [List.find?_eq_none] at hfind
      exact absurd (hfind n hn) (by simpa using hfree)
    | some m =>
      have hm := List.find?_some hfind
      simpa using hm
  · rename_i hbase
    simpa using hbase

/-! ## Drafts -/

theorem exists_of_mem_readAll {fs : FileSystem} {root : Path} {taken : List String}
    {files : List (List String)} {d : Draft} (h : d ∈ (readAll fs root taken files).1) :
    ∃ taken' names text, names ∈ files ∧ d = draftOf taken' names text := by
  induction files generalizing taken with
  | nil => cases h
  | cons names rest ih =>
    simp only [readAll] at h
    split at h
    · obtain ⟨taken', names', text, hmem, rfl⟩ := ih h
      exact ⟨taken', names', text, List.mem_cons_of_mem _ hmem, rfl⟩
    · rename_i text _
      rcases List.mem_cons.mp h with rfl | h
      · exact ⟨taken, names, text, List.mem_cons_self, rfl⟩
      · obtain ⟨taken', names', text, hmem, rfl⟩ := ih h
        exact ⟨taken', names', text, List.mem_cons_of_mem _ hmem, rfl⟩

/-- The files that are read get names that differ from each other and from those that are taken. -/
theorem nodup_readAll (fs : FileSystem) (root : Path) (taken : List String)
    (files : List (List String)) :
    ((readAll fs root taken files).1.map (·.component.name)).Nodup ∧
      ∀ d ∈ (readAll fs root taken files).1, d.component.name ∉ taken := by
  induction files generalizing taken with
  | nil => exact ⟨List.nodup_nil, nofun⟩
  | cons names rest ih =>
    simp only [readAll]
    split
    · exact ih taken
    · rename_i text _
      have hfresh : (draftOf taken names text).component.name ∉ taken := freshName_not_mem _ _
      obtain ⟨hnodup, hother⟩ := ih ((draftOf taken names text).component.name :: taken)
      refine ⟨List.nodup_cons.mpr ⟨?_, hnodup⟩, List.forall_mem_cons.mpr ⟨hfresh, ?_⟩⟩
      · rw [List.mem_map]
        rintro ⟨d, hd, hname⟩
        exact hother d hd (by simp [hname])
      · exact fun d hd hmem => hother d hd (List.mem_cons_of_mem _ hmem)

/-! ## Paths of components -/

theorem segments_relativeText {names : List String} (h : IsFileNames names) :
    segments (Source.relativeText names).toList = names.map String.toList := by
  obtain ⟨front, last, hnames, -⟩ := h.ends_with_name
  rw [Source.relativeText, String.toList_intercalate]
  refine List.splitOn_intercalate '/' (fun s hs => ?_) (by simp [hnames])
  obtain ⟨n, hn, rfl⟩ := List.mem_map.mp hs
  rcases h.steps n hn with rfl | hname
  · decide
  · exact hname.slash_not_mem

/-- A component with the path of a file, in the language that its path tells. -/
structure IsSource (d : Draft) : Prop where
  isFilePath : IsFilePath d.component.filePath.toList
  language_eq : d.language = Language.ofPath d.component.filePath
  imports_eq : ∃ text, d.component.imports = Source.imports d.language text

theorem filePath_draftOf (taken names : List String) (text : String) :
    (draftOf taken names text).component.filePath =
      if String.ofList (directory (Source.relativeText names).toList) = "" then
        "./" ++ Source.relativeText names
      else Source.relativeText names := by
  simp only [draftOf]

theorem language_draftOf (taken names : List String) (text : String) :
    (draftOf taken names text).language = Language.ofPath (Path.name ⟨0, names⟩) := by
  simp only [draftOf]

theorem imports_draftOf (taken names : List String) (text : String) :
    (draftOf taken names text).component.imports =
      Source.imports (draftOf taken names text).language text := by
  simp only [draftOf]

theorem isSource_draftOf {names : List String} (h : IsFileNames names) (taken : List String)
    (text : String) : IsSource (draftOf taken names text) := by
  obtain ⟨front, last, hnames, hlast⟩ := h.ends_with_name
  have hsegments : segments (Source.relativeText names).toList =
      front.map String.toList ++ [last.toList] := by
    rw [segments_relativeText h, hnames]
    simp
  have hrelative : IsRelative (Source.relativeText names).toList := by
    rw [← ofSegments_segments (Source.relativeText names).toList, segments_relativeText h]
    refine isRelative_ofSegments fun s hs => ?_
    obtain ⟨n, hn, rfl⟩ := List.mem_map.mp hs
    rcases h.steps n hn with rfl | hname
    · decide
    · exact ⟨hname.slash_not_mem, hname.ne_nil⟩
  -- a file at the top has a path with one more segment in front
  obtain ⟨front', hpath, hrelative'⟩ : ∃ front',
      segments (draftOf taken names text).component.filePath.toList = front' ++ [last.toList] ∧
        IsRelative (draftOf taken names text).component.filePath.toList := by
    rw [filePath_draftOf]
    split
    · refine ⟨here :: front.map String.toList, ?_, by simp [IsRelative]⟩
      have hdot : ("./" ++ Source.relativeText names).toList =
          here ++ '/' :: (Source.relativeText names).toList := by simp [here]
      rw [hdot, segments_append_slash, hsegments]
      rfl
    · exact ⟨front.map String.toList, hsegments, hrelative⟩
  refine ⟨⟨hrelative', front', last.toList, hpath, hlast⟩, ?_, text, imports_draftOf _ _ _⟩
  have hname : (Path.parse (draftOf taken names text).component.filePath).name = last :=
    (Path.name_parse hpath hlast).trans String.ofList_toList
  have hself : (Path.parse last).name = last := by
    have hsingle : segments last.toList = [] ++ [last.toList] :=
      segments_of_not_mem hlast.slash_not_mem
    exact (Path.name_parse hsingle hlast).trans String.ofList_toList
  have hfile : Path.name ⟨0, names⟩ = last := by simp [Path.name, hnames]
  rw [language_draftOf, hfile, Language.ofPath, Language.ofPath,
    Path.suffix_eq_of_name_eq (hself.trans hname.symm)]

/-! ## The analysis of a project -/

theorem le_of_limitOf {limit : Value} {n : ℕ} (h : limitOf limit = .ok n) : n ≤ maxComponents := by
  have hdefault : defaultLimit ≤ maxComponents := by decide
  have hclamp : ∀ k : ℤ,
      (if 1 ≤ k ∧ k ≤ maxComponents then k.toNat else defaultLimit) ≤ maxComponents := by
    intro k
    split
    · omega
    · exact hdefault
  have hread : ∀ k : Option ℤ,
      (k.map fun k : ℤ => if 1 ≤ k ∧ k ≤ maxComponents then k.toNat else defaultLimit).getD
        defaultLimit ≤ maxComponents := by
    rintro (_ | k)
    · exact hdefault
    · exact hclamp k
  unfold limitOf at h
  dsimp only at h
  split at h <;> cases h
  · exact hclamp _
  · exact hclamp _
  · exact hread _
  · exact hread _
  · exact hread _
  · exact hdefault

/-- What an analysis has found when it gives a result. -/
theorem exists_files_of_run {fs : FileSystem} {root : Path} {patterns exclude : Option (List String)}
    {limit : Value} {a : Analysis} {notices : List Notice} (hfs : fs.root.WellNamed)
    (h : run fs root patterns exclude limit = (.ok a, notices)) :
    ∃ files, a = ofDrafts root (readAll fs root [] files).1 ∧ files.Nodup ∧
      files.length ≤ maxComponents ∧ ∀ names ∈ files, IsFileNames names := by
  unfold run at h
  dsimp only at h
  split at h
  · cases h
  · rename_i n hlimit
    split at h
    · cases h
    · rename_i files others hfiles
      cases h
      refine ⟨files.take n, rfl, (Source.nodup_discover hfiles).take, ?_, fun names hnames => ?_⟩
      · exact (List.length_take_le n files).trans (le_of_limitOf hlimit)
      · exact Source.isFileNames_of_mem_discover hfs hfiles (List.mem_of_mem_take hnames)

theorem isSource_of_mem_readAll {fs : FileSystem} {root : Path} {taken : List String}
    {files : List (List String)} (h : ∀ names ∈ files, IsFileNames names) :
    ∀ d ∈ (readAll fs root taken files).1, IsSource d := by
  intro d hd
  obtain ⟨taken', names, text, hnames, rfl⟩ := exists_of_mem_readAll hd
  exact isSource_draftOf (h names hnames) taken' text

/-- An analysis without exclusions of files that are found in order. -/
theorem run_of_matches {fs : FileSystem} {root : Path} {p : String} {ps : List String}
    {found : List (List String)} {others : List Notice} {n : ℕ} {limit : Value}
    (hlimit : limitOf limit = .ok n)
    (hfound : Source.matchesOfAll fs root (p :: ps) = (.ok found, others))
    (hsorted : found.Pairwise fun a b => Path.namesPrecede a b = true) :
    ∃ notices, run fs root (some (p :: ps)) (some []) limit =
      (.ok (ofDrafts root (readAll fs root [] (found.eraseReps.take n)).1), notices) := by
  rw [← Source.select_nil_of_pairwise hsorted]
  unfold run
  simp only [hlimit, Source.discover, hfound]
  exact ⟨_, rfl⟩

/-- The plain paths of the components of an analysis, each with the name of its component; of the
components at one path the last counts. -/
def known (a : Analysis) : Source.Known :=
  (a.components.map fun c => (plainPath c, c.name)).reverse

/-- Where an import of a component leads, by name. -/
def target? (a : Analysis) (c : Component) (i : ImportRef) : Option String :=
  Source.resolve (Language.ofPath c.filePath) a.known (plainPath c) i.path

/-- A relative import of a component that leads to a component. -/
structure Leads (a : Analysis) (c : Component) (i : ImportRef) (d : Component) : Prop where
  importer_mem : c ∈ a.components
  import_mem : i ∈ c.imports
  is_relative : i.path.toList.head? = some '.'
  target_mem : d ∈ a.components
  target_eq : a.target? c i = some d.name

/-- What holds of the components of every analysis. -/
structure IsAnalyzed (a : Analysis) : Prop where
  nodup_names : (a.components.map (·.name)).Nodup
  isFilePath : ∀ c ∈ a.components, IsFilePath c.filePath.toList
  imports_eq : ∀ c ∈ a.components,
    ∃ text, c.imports = Source.imports (Language.ofPath c.filePath) text
  dependencies_eq : ∀ c ∈ a.components,
    c.dependencies = (c.imports.filter (·.path.toList.head? == some '.')).filterMap (a.target? c)

@[simp] theorem name_link (known : Source.Known) (d : Draft) :
    (link known d).name = d.component.name := rfl

@[simp] theorem filePath_link (known : Source.Known) (d : Draft) :
    (link known d).filePath = d.component.filePath := rfl

@[simp] theorem imports_link (known : Source.Known) (d : Draft) :
    (link known d).imports = d.component.imports := rfl

@[simp] theorem plainPath_link (known : Source.Known) (d : Draft) :
    plainPath (link known d) = plainPath d.component := by
  simp only [plainPath, filePath_link]

theorem dependencies_link (known : Source.Known) (d : Draft) :
    (link known d).dependencies =
      (d.component.imports.filter (·.path.toList.head? == some '.')).filterMap fun i =>
        Source.resolve d.language known (plainPath d.component) i.path := by
  simp only [link]

theorem components_ofDrafts (root : Path) (drafts : List Draft) :
    (ofDrafts root drafts).components = drafts.map (link (ofDrafts root drafts).known) := by
  simp [known, ofDrafts, Function.comp_def]

theorem isAnalyzed_ofDrafts {drafts : List Draft} (root : Path)
    (hnodup : (drafts.map (·.component.name)).Nodup) (h : ∀ d ∈ drafts, IsSource d) :
    (ofDrafts root drafts).IsAnalyzed where
  nodup_names := by
    rw [components_ofDrafts, List.map_map]
    exact hnodup
  isFilePath := by
    rw [components_ofDrafts]
    intro c hc
    obtain ⟨d, hd, rfl⟩ := List.mem_map.mp hc
    rw [filePath_link]
    exact (h d hd).isFilePath
  imports_eq := by
    rw [components_ofDrafts]
    intro c hc
    obtain ⟨d, hd, rfl⟩ := List.mem_map.mp hc
    rw [imports_link, filePath_link, ← (h d hd).language_eq]
    exact (h d hd).imports_eq
  dependencies_eq := by
    rw [components_ofDrafts]
    intro c hc
    obtain ⟨d, hd, rfl⟩ := List.mem_map.mp hc
    rw [dependencies_link, (h d hd).language_eq, imports_link]
    refine List.filterMap_congr fun i _ => ?_
    rw [target?, filePath_link, plainPath_link]

theorem isAnalyzed_of_run {fs : FileSystem} {root : Path} {patterns exclude : Option (List String)}
    {limit : Value} {a : Analysis} {notices : List Notice} (hfs : fs.root.WellNamed)
    (h : run fs root patterns exclude limit = (.ok a, notices)) : a.IsAnalyzed := by
  obtain ⟨files, rfl, -, -, hfiles⟩ := exists_files_of_run hfs h
  exact isAnalyzed_ofDrafts root (nodup_readAll fs root [] files).1 (isSource_of_mem_readAll hfiles)

/-- What is known at a path is the name of a component there. -/
theorem exists_of_lookup_known {a : Analysis} {path name : String}
    (h : a.known.lookup path = some name) :
    ∃ c ∈ a.components, plainPath c = path ∧ c.name = name := by
  obtain ⟨before, after, hknown, -⟩ := List.lookup_eq_some_iff.mp h
  have hmem : (path, name) ∈ a.known := by simp [hknown]
  simpa [known] using hmem

namespace IsAnalyzed

variable {a : Analysis} (h : a.IsAnalyzed)
include h

theorem eq_of_name_eq {c d : Component} (hc : c ∈ a.components) (hd : d ∈ a.components)
    (hname : c.name = d.name) : c = d :=
  List.inj_on_of_nodup_map h.nodup_names hc hd hname

/-- The component whose name is known at a path is at that path. -/
theorem plainPath_of_lookup {d : Component} {path : String} (hd : d ∈ a.components)
    (hlookup : a.known.lookup path = some d.name) : plainPath d = path := by
  obtain ⟨c, hc, hpath, hname⟩ := exists_of_lookup_known hlookup
  rw [← h.eq_of_name_eq hc hd hname, hpath]

/-- The dependencies of a component are the components that its imports lead to. -/
theorem mem_dependencies_of_leads {c d : Component} {i : ImportRef} (hleads : a.Leads c i d) :
    d.name ∈ c.dependencies := by
  rw [h.dependencies_eq c hleads.importer_mem, List.mem_filterMap]
  refine ⟨i, List.mem_filter.mpr ⟨hleads.import_mem, ?_⟩, hleads.target_eq⟩
  simp [hleads.is_relative]

end IsAnalyzed

end Analysis

end Layering
