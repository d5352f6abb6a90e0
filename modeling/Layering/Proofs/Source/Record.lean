import Layering.Proofs.Source.Extraction
import Layering.Proofs.Source.Lossless
import Layering.Proofs.Value.Entries

/-!
# Records of components and analyses

Reading a record gives a component whose lines are lines of a file and whose dependencies are not empty,
whatever the record holds (`Component.isRecorded_ofEntries`). Such a component is read back from its own
record, with the name it is shown under as its original name (`Component.reread_eq`). The components of an
analysis are of that kind and have original names, so the record of an analysis describes its graph
(`Analysis.ofValue_record`). The main result is `records_read_back`.
-/

namespace Layering

/-! ## Imports -/

theorem Place.ofValue?_value (p : Place) : ofValue? p.value = some p := by
  cases p <;> rfl

namespace ImportRef

/-- Whether the line of an import, where it is known, can be the line of a file. -/
def IsPlaced (i : ImportRef) : Prop := ∀ l ∈ i.line, l.isLine = true

theorem isPlaced_of_ofValue? {v : Value} {i : ImportRef} (h : ofValue? v = some i) : i.IsPlaced := by
  unfold ofValue? at h
  split at h
  · cases h
    exact fun l hl => absurd hl (by simp)
  · split at h
    · cases h
      exact fun l hl => (Option.mem_filter_iff.mp hl).2
    · cases h
  · cases h

theorem ofValue?_value {i : ImportRef} (h : i.IsPlaced) : ofValue? i.value = some i := by
  obtain ⟨path, line⟩ := i
  cases line with
  | none => rfl
  | some l =>
    have hvalue : ImportRef.value ⟨path, some l⟩ =
        .map [(.text "path", .str path), (.text "line", l.value)] := rfl
    have hpath : Entries.field "path" [(.text "path", .str path), (.text "line", l.value)] =
        .str path := by
      simp [Entries.field, Entries.field?_cons, Scalar.same]
    have hline : Entries.field "line" [(.text "path", .str path), (.text "line", l.value)] =
        l.value := by
      simp [Entries.field, Entries.field?_cons, Scalar.same]
    rw [hvalue, ofValue?, hpath, hline, Place.ofValue?_value, Option.filter_some, if_pos (h l rfl)]

end ImportRef

/-! ## Components -/

namespace Component

/-- A component as records give it. -/
structure IsRecorded (c : Component) : Prop where
  isPlaced : ∀ i ∈ c.imports, i.IsPlaced
  dependency_ne : ∀ d ∈ c.dependencies, d ≠ ""

theorem isRecorded_ofEntries (entries : List (Scalar × Value)) : (ofEntries entries).IsRecorded where
  isPlaced := by
    intro i hi
    obtain ⟨v, -, hv⟩ := List.mem_filterMap.mp hi
    exact ImportRef.isPlaced_of_ofValue? hv
  dependency_ne := by
    intro d hd
    obtain ⟨v, -, hv⟩ := List.mem_filterMap.mp hd
    exact of_decide_eq_true (Option.mem_filter_iff.mp hv).2

/-- The component that is read from the record of a component. -/
def reread (c : Component) : Component := ofEntries (c.value.entries?.getD [])

theorem reread_eq {c : Component} (h : c.IsRecorded) :
    c.reread = { c with originalName := c.shownName } := by
  have himports : (c.imports.map ImportRef.value).filterMap ImportRef.ofValue? = c.imports := by
    rw [List.filterMap_map]
    have hself : ∀ i ∈ c.imports, (ImportRef.ofValue? ∘ ImportRef.value) i = some i :=
      fun i hi => ImportRef.ofValue?_value (h.isPlaced i hi)
    rw [List.filterMap_congr hself, List.filterMap_some]
  have hdependencies : (c.dependencies.map Value.str).filterMap (fun v => v.text?.filter (· ≠ "")) =
      c.dependencies := by
    rw [List.filterMap_map]
    have hself : ∀ d ∈ c.dependencies,
        ((fun v : Value => v.text?.filter (· ≠ "")) ∘ Value.str) d = some d := by
      intro d hd
      have hne := h.dependency_ne d hd
      simp [Value.text?, hne]
    rw [List.filterMap_congr hself, List.filterMap_some]
  have hvalue : c.value.entries?.getD [] = [(.text "name", .str c.name),
      (.text "originalName", .str c.shownName), (.text "filePath", .str c.filePath),
      (.text "directory", .str c.directory), (.text "type", .str c.kind),
      (.text "imports", .list (c.imports.map ImportRef.value)),
      (.text "dependencies", .list (c.dependencies.map .str))] := rfl
  rw [reread, hvalue]
  have htext : ∀ s, (Value.str s).text? = some s := fun _ => rfl
  have hitems : ∀ vs, (Value.list vs).items? = some vs := fun _ => rfl
  simp only [ofEntries, either, Entries.field, Entries.field?_cons, Scalar.same, String.reduceBEq,
    Bool.false_eq_true, if_false, if_true, Option.getD_some, htext, hitems, himports, hdependencies]

/-- Once a component has been read from its record, reading it again changes nothing. -/
theorem reread_reread {c : Component} (h : c.IsRecorded) : c.reread.reread = c.reread := by
  have hshown : ({ c with originalName := c.shownName } : Component).shownName = c.shownName := by
    by_cases hname : c.shownName = ""
    · -- nothing is shown only if the name is empty too
      have hempty : c.name = "" := by
        unfold shownName at hname
        split at hname <;> simp_all
      rw [shownName, if_pos hname, hname, hempty]
    · rw [shownName, if_neg hname]
  have hrecorded : c.reread.IsRecorded := isRecorded_ofEntries _
  rw [reread_eq hrecorded, reread_eq h, hshown]

theorem reread_eq_self {c : Component} (h : c.IsRecorded) (hname : c.originalName ≠ "") :
    c.reread = c := by
  rw [reread_eq h, shownName, if_neg hname]

end Component

/-! ## Analyses -/

theorem Graph.componentsOf_map_value (cs : List Component) :
    componentsOf (cs.map Component.value) = (cs.map Component.reread, []) := by
  induction cs with
  | nil => rfl
  | cons c cs ih =>
    rw [List.map_cons, componentsOf, ih]
    rfl

namespace Source

theorem isPlaced_of_mem_imports {language : Language} {text : String} {i : ImportRef}
    (h : i ∈ imports language text) : i.IsPlaced := by
  obtain ⟨o, ho, rfl⟩ := List.mem_map.mp h
  have hline := (standsIn_of_mem ho).line_eq
  intro l hl
  cases hl
  simp only [Place.isLine, decide_eq_true_eq]
  omega

end Source

namespace Analysis

variable {fs : FileSystem} {root : Path} {patterns exclude : Option (List String)} {limit : Value}
  {a : Analysis} {notices : List Notice}

theorem isRecorded_of_run (hfs : fs.root.WellNamed)
    (hrun : run fs root patterns exclude limit = (.ok a, notices)) {c : Component}
    (hc : c ∈ a.components) : c.IsRecorded where
  isPlaced := by
    obtain ⟨text, himports⟩ := (isAnalyzed_of_run hfs hrun).imports_eq c hc
    rw [himports]
    exact fun i hi => Source.isPlaced_of_mem_imports hi
  dependency_ne := by
    intro n hn
    obtain ⟨-, hcomponents, hindexed⟩ := isIndexed_of_run hfs hrun
    rw [(isAnalyzed_of_run hfs hrun).dependencies_eq c hc] at hn
    obtain ⟨i, -, hi⟩ := List.mem_filterMap.mp hn
    obtain ⟨d, hd, rfl⟩ := exists_of_target? hi
    exact hindexed.name_ne d (hcomponents ▸ hd)

theorem originalName_ne_of_run (hfs : fs.root.WellNamed)
    (hrun : run fs root patterns exclude limit = (.ok a, notices)) {c : Component}
    (hc : c ∈ a.components) : c.originalName ≠ "" := by
  obtain ⟨files, rfl, -, -, hfiles⟩ := exists_files_of_run hfs hrun
  rw [components_ofDrafts] at hc
  obtain ⟨d, hd, rfl⟩ := List.mem_map.mp hc
  obtain ⟨taken, names, text, hnames, rfl⟩ := exists_of_mem_readAll hd
  exact stem_ne_empty (hfiles names hnames)

/-- The record of an analysis describes its graph, if its components are read back from theirs. -/
theorem ofValue_record (h : ∀ c ∈ a.components, c.reread = c) :
    Graph.ofValue (.record a.fields) = .ok a.graph := by
  have hcomponents : a.components.map Component.reread = a.components :=
    List.map_congr_left h |>.trans (List.map_id _)
  have hroot : (if (Value.str a.rootPath).isTruthy then (Value.str a.rootPath).shownText else "") =
      a.rootPath := by
    have hshown : (Value.str a.rootPath).shownText = a.rootPath := String.ofList_toList
    have htruthy : (Value.str a.rootPath).isTruthy = (a.rootPath != "") := rfl
    by_cases hempty : a.rootPath = ""
    · rw [htruthy, if_neg (by simp [hempty]), hempty]
    · rw [htruthy, if_pos (by simpa using hempty), hshown]
  have hrecord : Value.record a.fields = .map [(.text "rootPath", .str a.rootPath),
      (.text "components", .list (a.components.map Component.value)),
      (.text "entryPoints", .list (a.entryPoints.map .str)),
      (.text "languages", .map a.languageEntries),
      (.text "directories", .list (a.directories.map .str))] := rfl
  have hitems : ∀ vs, (Value.list vs).items? = some vs := fun _ => rfl
  have hlanguages : ∀ es, (Value.map es).entries? = some es := fun _ => rfl
  rw [hrecord, Graph.ofValue]
  simp only [Component.either, Entries.field, Entries.field?_cons, Scalar.same, String.reduceBEq,
    Bool.false_eq_true, if_false, if_true, Option.getD_some, hitems, hlanguages,
    Graph.componentsOf_map_value, hcomponents, hroot, List.nil_append]
  rfl

end Analysis

/-- **Records are read back.** Take the component that any record describes. What is read from its own
record is that component again, except that an empty original name becomes the name; and from then on
reading changes nothing. Whenever the analysis of a project gives a result, its record describes the same
graph as the result itself: the same components, root, languages and directories, and no notices. -/
theorem records_read_back (data : List (Scalar × Value)) :
    (Component.ofEntries data).reread = { Component.ofEntries data with
      originalName := if (Component.ofEntries data).originalName = "" then
        (Component.ofEntries data).name else (Component.ofEntries data).originalName } ∧
    (Component.ofEntries data).reread.reread = (Component.ofEntries data).reread ∧
    ∀ {fs : FileSystem} {root : Path} {patterns exclude : Option (List String)} {limit : Value}
      {a : Analysis} {notices : List Notice}, fs.root.WellNamed →
      Analysis.run fs root patterns exclude limit = (.ok a, notices) →
      Graph.ofValue (.record a.fields) = .ok a.graph := by
  have hdata := Component.isRecorded_ofEntries data
  refine ⟨Component.reread_eq hdata, Component.reread_reread hdata, fun hfs hrun => ?_⟩
  refine Analysis.ofValue_record fun c hc => ?_
  exact Component.reread_eq_self (Analysis.isRecorded_of_run hfs hrun hc)
    (Analysis.originalName_ne_of_run hfs hrun hc)

/-- A record with fields of the wrong kind, two kinds of imports and a line that is a truth value. -/
def looseRecord : List (Scalar × Value) := [
  (.text "name", .str "view"),
  (.text "filePath", .null),
  (.text "file_path", .str "src/view.ts"),
  (.text "imports", .list [.str "./store", .int 1,
    .record [("path", .str "./model"), ("line", .int 0)],
    .record [("path", .str "./form"), ("line", .bool true)]]),
  (.text "dependencies", .list [.str "", .str "store", .null])]

theorem records_read_back_looseRecord :
    (Component.ofEntries looseRecord).reread = ⟨"view", "", "", "file", "view",
      [⟨"./store", none⟩, ⟨"./model", none⟩, ⟨"./form", some (.flag true)⟩], ["store"]⟩ ∧
    Analysis.takenNames.root.WellNamed ∧ ∃ a notices,
      Analysis.run Analysis.takenNames ⟨0, []⟩ (some ["b/*.py"]) (some []) .null = (.ok a, notices) ∧
      a.components.length = 2 ∧ Graph.ofValue (.record a.fields) = .ok a.graph := by
  have hnamed : Analysis.takenNames.root.WellNamed := by decide +kernel
  have hfound : Source.matchesOfAll Analysis.takenNames ⟨0, []⟩ ["b/*.py"] =
      (.ok [["b", "util.py"], ["b", "util_1.py"]], []) := by
    rfl
  have hlimit : Analysis.limitOf .null = .ok Analysis.defaultLimit := rfl
  obtain ⟨notices, hrun⟩ := Analysis.run_of_matches hlimit hfound (by decide +kernel)
  obtain ⟨hreread, -, hgraph⟩ := records_read_back looseRecord
  refine ⟨?_, hnamed, _, notices, hrun, by decide +kernel, hgraph hnamed hrun⟩
  rw [hreread]
  decide +kernel

end Layering
