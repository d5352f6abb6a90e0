import Layering.Proofs.Graph.Arrow
import Layering.Proofs.Source.Components

/-!
# The graph of an analysis

The graph of an analysis loses nothing of it. Names and paths of components are not empty and occur
once (`IsAnalyzed.nodup_names`, `isIndexed_of_run`), and there are no more components than a graph
holds, so each is found by its name and by its path (`Graph.IsIndexed.component?_eq`,
`Graph.IsIndexed.componentAt?_eq`). The dependencies of a component are names of components, so none is
dropped, and dependents are dependencies read backwards (`Graph.IsIndexed.mem_dependents_iff`). The main
result is `graph_lossless`.
-/

namespace Layering

open PathText

/-! ## Graphs with distinct names and paths -/

namespace Graph

/-- A graph whose components have names and paths, each of them its own. -/
structure IsIndexed (g : Graph) : Prop where
  nodup_names : (g.components.map (·.name)).Nodup
  name_ne : ∀ c ∈ g.components, c.name ≠ ""
  nodup_paths : (g.components.map (·.filePath)).Nodup
  path_ne : ∀ c ∈ g.components, c.filePath ≠ ""

theorem find?_key_eq {α : Type*} {key : α → String} {l : List α} (h : (l.map key).Nodup) {x : α}
    (hx : x ∈ l) : l.find? (key · == key x) = some x := by
  cases hfind : l.find? (key · == key x) with
  | none => exact absurd (beq_self_eq_true (key x)) (List.find?_eq_none.mp hfind x hx)
  | some y =>
    have hkey : key y = key x := by simpa using List.find?_some hfind
    rw [List.inj_on_of_nodup_map h (List.mem_of_find?_eq_some hfind) hx hkey]

theorem repeatedNames_eq_nil {seen names : List String} (hnodup : names.Nodup)
    (hseen : ∀ n ∈ names, n ∉ seen) : repeatedNames seen names = [] := by
  induction names generalizing seen with
  | nil => rfl
  | cons n names ih =>
    obtain ⟨hn, hnodup⟩ := List.nodup_cons.mp hnodup
    obtain ⟨hfirst, hseen⟩ := List.forall_mem_cons.mp hseen
    rw [repeatedNames, if_neg (by simpa using hfirst)]
    refine ih hnodup fun m hm hmem => ?_
    rcases List.mem_cons.mp hmem with rfl | hmem
    · exact hn hm
    · exact hseen m hm hmem

/-- A list of components with distinct names that fits into a graph is kept, without a notice. -/
theorem build_eq {components : List Component} (hnodup : (components.map (·.name)).Nodup)
    (hlength : components.length ≤ maxComponents) (rootPath : String)
    (languages : List (Scalar × Value)) (directories : List Value) :
    build components rootPath languages directories =
      (⟨components, rootPath, languages, directories⟩, []) := by
  have hrepeated : repeatedNames [] ((components.map (·.name)).filter (· ≠ "")) = [] :=
    repeatedNames_eq_nil (hnodup.filter _) fun _ _ => List.not_mem_nil
  simp only [build, List.take_of_length_le hlength, if_neg (Nat.not_lt.mpr hlength), hrepeated]
  rfl

namespace IsIndexed

variable {g : Graph} (h : g.IsIndexed)
include h

theorem component?_eq {c : Component} (hc : c ∈ g.components) : g.component? c.name = some c := by
  rw [component?, if_neg (h.name_ne c hc)]
  exact find?_key_eq h.nodup_names hc

theorem componentAt?_eq {c : Component} (hc : c ∈ g.components) :
    g.componentAt? c.filePath = some c := by
  have hreverse : (g.components.reverse.map (·.filePath)).Nodup := by
    rw [List.map_reverse, List.nodup_reverse]
    exact h.nodup_paths
  rw [componentAt?, if_neg (h.path_ne c hc)]
  exact find?_key_eq hreverse (List.mem_reverse.mpr hc)

/-- A name that stands for a component is its name. -/
theorem component?_eq_some_iff {c : Component} (hc : c ∈ g.components) {n : String} :
    g.component? n = some c ↔ n = c.name := by
  refine ⟨fun hn => (component?_eq_some hn).2.1.symm, ?_⟩
  rintro rfl
  exact h.component?_eq hc

theorem mem_dependencies_iff {c d : Component} (hc : c ∈ g.components) (hd : d ∈ g.components) :
    c ∈ g.dependencies d.name ↔ c.name ∈ d.dependencies := by
  rw [dependencies, h.component?_eq hd]
  simp only [List.mem_filterMap, h.component?_eq_some_iff hc, exists_eq_right]

/-- The dependents of a component are the components that it is a dependency of. -/
theorem mem_dependents_iff {c d : Component} (hc : c ∈ g.components) (hd : d ∈ g.components) :
    d ∈ g.dependents c.name ↔ c ∈ g.dependencies d.name := by
  rw [h.mem_dependencies_iff hc hd, dependents]
  simp only [List.mem_filterMap, h.component?_eq_some_iff hd, exists_eq_right, dependentNames,
    List.mem_eraseDups, List.mem_map, List.mem_filter, List.contains_iff_mem]
  constructor
  · rintro ⟨e, ⟨he, hdepends⟩, hname⟩
    rwa [← List.inj_on_of_nodup_map h.nodup_names he hd hname]
  · exact fun hdepends => ⟨d, ⟨hd, hdepends⟩, rfl⟩

/-- Where all dependencies of a component are names of components, none is dropped. -/
theorem map_name_dependencies {c : Component} (hc : c ∈ g.components)
    (hknown : ∀ n ∈ c.dependencies, ∃ d ∈ g.components, d.name = n) :
    (g.dependencies c.name).map (·.name) = c.dependencies := by
  rw [dependencies, h.component?_eq hc, List.map_filterMap]
  have hself : ∀ n ∈ c.dependencies, (g.component? n).map (·.name) = some n := by
    intro n hn
    obtain ⟨d, hd, rfl⟩ := hknown n hn
    rw [h.component?_eq hd, Option.map_some]
  rw [List.filterMap_congr hself, List.filterMap_some]

end IsIndexed

end Graph

namespace Analysis

/-! ## Names of components -/

theorem stem_ne_empty {names : List String} (h : IsFileNames names) :
    Path.stem ⟨0, names⟩ ≠ "" := by
  obtain ⟨front, last, rfl, hlast⟩ := h.ends_with_name
  have hname : Path.name ⟨0, front ++ [last]⟩ = last := by simp [Path.name]
  unfold Path.stem Path.splitName
  dsimp only
  split
  · rw [hname]
    rintro rfl
    exact hlast.ne_nil rfl
  · rename_i hsplit
    rw [not_or, not_or] at hsplit
    rw [ne_eq, String.ofList_eq_empty_iff, ← List.isEmpty_iff]
    exact hsplit.2.1

theorem freshName_ne_empty {base : String} (h : base ≠ "") (taken : List String) :
    freshName taken base ≠ "" := by
  unfold freshName
  split
  · cases hfind : ((List.range taken.length).map fun k => s!"{base}_{k + 1}").find? fun n =>
        !taken.contains n with
    | none => exact h
    | some n =>
      obtain ⟨k, -, rfl⟩ := List.mem_map.mp (List.mem_of_find?_eq_some hfind)
      intro hempty
      have hlength := congrArg String.length hempty
      simp [toString] at hlength
  · exact h

/-! ## Paths of components -/

/-- The names that lead to a file can be read off the path of its component. -/
theorem names_parse_filePath {names : List String} (h : IsFileNames names) (taken : List String)
    (text : String) :
    (Path.parse (draftOf taken names text).component.filePath).names = names := by
  have hkept : ((names.map String.toList).filter fun n => n ≠ [] ∧ n ≠ here).map String.ofList =
      names := by
    rw [List.filter_eq_self.mpr]
    · simp
    · intro s hs
      obtain ⟨n, hn, rfl⟩ := List.mem_map.mp hs
      rcases h.steps n hn with rfl | hname
      · decide
      · exact decide_eq_true ⟨hname.ne_nil, hname.ne_here⟩
  rw [filePath_draftOf]
  split
  · have hdot : ("./" ++ Source.relativeText names).toList =
        here ++ '/' :: (Source.relativeText names).toList := by simp [here]
    have hhere : segments here = [here] := rfl
    simp only [Path.parse, hdot, segments_append_slash, segments_relativeText h, hhere]
    simpa using hkept
  · simp only [Path.parse, segments_relativeText h]
    exact hkept

/-- The files that are read are some of those that were found, in their order. -/
theorem sublist_readAll (fs : FileSystem) (root : Path) (taken : List String)
    {files : List (List String)} (h : ∀ names ∈ files, IsFileNames names) :
    ((readAll fs root taken files).1.map fun d =>
      (Path.parse d.component.filePath).names).Sublist files := by
  induction files generalizing taken with
  | nil => exact .slnil
  | cons names rest ih =>
    obtain ⟨hnames, hrest⟩ := List.forall_mem_cons.mp h
    simp only [readAll]
    split
    · exact (ih taken hrest).cons names
    · rw [List.map_cons, names_parse_filePath hnames]
      exact (ih _ hrest).cons_cons names


/-! ## The graph of an analysis -/

theorem isIndexed_of_run {fs : FileSystem} {root : Path} {patterns exclude : Option (List String)}
    {limit : Value} {a : Analysis} {notices : List Notice} (hfs : fs.root.WellNamed)
    (h : run fs root patterns exclude limit = (.ok a, notices)) :
    a.graph.2 = [] ∧ a.graph.1.components = a.components ∧ a.graph.1.IsIndexed := by
  have hanalyzed := isAnalyzed_of_run hfs h
  obtain ⟨files, rfl, hnodup, hlength, hfiles⟩ := exists_files_of_run hfs h
  have hread := sublist_readAll fs root [] hfiles
  set drafts := (readAll fs root [] files).1 with hdrafts
  have hcomponents := components_ofDrafts root drafts
  have hfits : (ofDrafts root drafts).components.length ≤ maxComponents := by
    have hsub := hread.length_le
    rw [List.length_map] at hsub
    rw [hcomponents, List.length_map]
    exact hsub.trans hlength
  have hgraph : (ofDrafts root drafts).graph = (⟨(ofDrafts root drafts).components, _, _, _⟩, []) :=
    Graph.build_eq hanalyzed.nodup_names hfits _ _ _
  rw [hgraph]
  refine ⟨rfl, rfl, hanalyzed.nodup_names, fun c hc => ?_, ?_, fun c hc => ?_⟩
  · rw [hcomponents] at hc
    obtain ⟨d, hd, rfl⟩ := List.mem_map.mp hc
    obtain ⟨taken, names, text, hnames, rfl⟩ := exists_of_mem_readAll (hdrafts ▸ hd)
    exact freshName_ne_empty (stem_ne_empty (hfiles names hnames)) taken
  · -- the paths differ since the names that lead to the files do
    have hpaths : ((ofDrafts root drafts).components.map fun c => (Path.parse c.filePath).names) =
        drafts.map fun d => (Path.parse d.component.filePath).names := by
      rw [hcomponents, List.map_map]
      rfl
    have hdistinct := hread.nodup hnodup
    rw [← hpaths] at hdistinct
    exact List.Nodup.of_map (fun p => (Path.parse p).names) (by rwa [List.map_map])
  · intro hempty
    obtain ⟨-, front, last, hsegments, hlast⟩ := hanalyzed.isFilePath c hc
    rw [hempty, String.toList_empty, segments_nil] at hsegments
    have hlast' : [] = last := by simpa using congrArg List.getLast? hsegments
    exact hlast.ne_nil hlast'.symm

/-- What a graph keeps of an analysis. -/
structure KeptBy (a : Analysis) (g : Graph) : Prop where
  components_eq : g.components = a.components
  nodup_names : (a.components.map (·.name)).Nodup
  name_ne : ∀ c ∈ a.components, c.name ≠ ""
  component?_eq : ∀ c ∈ a.components, g.component? c.name = some c
  componentAt?_eq : ∀ c ∈ a.components, g.componentAt? c.filePath = some c
  /-- Each dependency is the name of a component. -/
  dependencies_known : ∀ c ∈ a.components, ∀ n ∈ c.dependencies, ∃ d ∈ a.components, d.name = n
  /-- No dependency is dropped. -/
  dependencies_eq : ∀ c ∈ a.components, (g.dependencies c.name).map (·.name) = c.dependencies
  mem_dependents_iff : ∀ c ∈ a.components, ∀ d ∈ a.components,
    d ∈ g.dependents c.name ↔ c ∈ g.dependencies d.name
  /-- Each component is counted in one language. -/
  sum_languages : (a.languages.map (·.2)).sum = a.components.length
  entryPoints_known : ∀ p ∈ a.entryPoints, ∃ c ∈ a.components, c.filePath = p

theorem exists_of_target? {a : Analysis} {c : Component} {i : ImportRef} {n : String}
    (h : a.target? c i = some n) : ∃ d ∈ a.components, d.name = n := by
  obtain ⟨p, hlookup⟩ := Source.exists_lookup_of_resolve h
  obtain ⟨d, hd, -, hname⟩ := exists_of_lookup_known hlookup
  exact ⟨d, hd, hname⟩

theorem sum_languages_ofDrafts (root : Path) (drafts : List Draft) :
    ((ofDrafts root drafts).languages.map (·.2)).sum = (ofDrafts root drafts).components.length := by
  have hlanguages : (ofDrafts root drafts).languages.map (·.2) =
      (drafts.map (·.language.name)).eraseDups.map fun n =>
        (drafts.map (·.language.name)).count n := by
    simp only [ofDrafts, tally, List.map_map]
    rfl
  rw [hlanguages, sum_count_eraseDups, components_ofDrafts, List.length_map, List.length_map]

theorem exists_of_mem_entryPoints {root : Path} {drafts : List Draft} {p : String}
    (h : p ∈ (ofDrafts root drafts).entryPoints) :
    ∃ c ∈ (ofDrafts root drafts).components, c.filePath = p := by
  have hp : p ∈ (drafts.map (·.component)).map (·.filePath) := List.mem_of_mem_filter h
  rw [components_ofDrafts]
  rw [List.map_map] at hp
  obtain ⟨d, hd, rfl⟩ := List.mem_map.mp hp
  exact ⟨_, List.mem_map_of_mem hd, rfl⟩

/-- **The graph of an analysis loses nothing.** Whenever the analysis of a project gives a result, its
graph is made without a notice: no name is repeated, and no component is left out. It holds the
components in their order, and each is found by its name, which is not empty, and by its path. Their
dependencies are names of components, so none of them is dropped, and a component is a dependent of
another exactly if the other is a dependency of it. The languages count each component once, and the
entry points are paths of components. -/
theorem graph_lossless {fs : FileSystem} {root : Path} {patterns exclude : Option (List String)}
    {limit : Value} {a : Analysis} {notices : List Notice} (hfs : fs.root.WellNamed)
    (hrun : run fs root patterns exclude limit = (.ok a, notices)) :
    a.graph.2 = [] ∧ a.KeptBy a.graph.1 := by
  have hanalyzed := isAnalyzed_of_run hfs hrun
  obtain ⟨hnotices, hcomponents, hindexed⟩ := isIndexed_of_run hfs hrun
  have hmem : ∀ {c}, c ∈ a.components → c ∈ a.graph.1.components := fun hc => hcomponents ▸ hc
  have hknown : ∀ c ∈ a.components, ∀ n ∈ c.dependencies, ∃ d ∈ a.components, d.name = n := by
    intro c hc n hn
    rw [hanalyzed.dependencies_eq c hc] at hn
    obtain ⟨i, -, hi⟩ := List.mem_filterMap.mp hn
    exact exists_of_target? hi
  obtain ⟨files, hdrafts, -⟩ := exists_files_of_run hfs hrun
  refine ⟨hnotices, {
    components_eq := hcomponents
    nodup_names := hanalyzed.nodup_names
    name_ne := fun c hc => hindexed.name_ne c (hmem hc)
    component?_eq := fun c hc => hindexed.component?_eq (hmem hc)
    componentAt?_eq := fun c hc => hindexed.componentAt?_eq (hmem hc)
    dependencies_known := hknown
    dependencies_eq := fun c hc => hindexed.map_name_dependencies (hmem hc) ?_
    mem_dependents_iff := fun c hc d hd => hindexed.mem_dependents_iff (hmem hc) (hmem hd)
    sum_languages := ?_
    entryPoints_known := ?_ }⟩
  · rw [hcomponents]
    exact hknown c hc
  · rw [hdrafts]
    exact sum_languages_ofDrafts root _
  · rw [hdrafts]
    exact fun p hp => exists_of_mem_entryPoints hp

/-- A project in which a file has the name that another one gets since its own is taken. -/
def takenNames : FileSystem where
  root := .dir [
    ("a", .dir [("util.py", .file (some ""))]),
    ("b", .dir [
      ("util.py", .file (some "from .util_1 import f\n")),
      ("util_1.py", .file (some "from ..a.util import f\n"))]),
    ("main.py", .file (some "from .b import util\n"))]
  working := []

theorem graph_lossless_takenNames :
    takenNames.root.WellNamed ∧ ∃ a notices,
      run takenNames ⟨0, []⟩ (some ["*/*.py", "*.py"]) (some []) .null = (.ok a, notices) ∧
      a.components.map (fun c => (c.name, c.filePath, c.dependencies)) =
        [("util", "a/util.py", []), ("util_1", "b/util.py", ["util_1_1"]),
          ("util_1_1", "b/util_1.py", ["util"]), ("main", "./main.py", [])] ∧
      a.graph.2 = [] ∧ a.KeptBy a.graph.1 := by
  have hnamed : takenNames.root.WellNamed := by decide +kernel
  have hfound : Source.matchesOfAll takenNames ⟨0, []⟩ ["*/*.py", "*.py"] =
      (.ok [["a", "util.py"], ["b", "util.py"], ["b", "util_1.py"], ["main.py"]], []) := by
    rfl
  have hlimit : limitOf .null = .ok defaultLimit := rfl
  obtain ⟨notices, hrun⟩ := run_of_matches hlimit hfound (by decide +kernel)
  exact ⟨hnamed, _, notices, hrun, by decide +kernel, graph_lossless hnamed hrun⟩

end Analysis

end Layering
