import Layering.Diagram.Basic
import Layering.Proofs.List.Repetition
import Mathlib.Data.List.Count

/-!
# What an architecture diagram shows

The lines of an architecture diagram are those of a drawing (`Drawing`): blocks with components in them,
arrows between components, and names in colour. A drawing shows some components of a graph faithfully
(`Drawing.Shows`) if its blocks divide the components up by directory, its arrows are the dependencies
between them, each as often as it is listed, and the names in colour are those of the entry points. The
main result, `render_shows_components`, says that every diagram with a component in it is such a drawing,
and that there is none exactly if a name or a directory of a component cannot be encoded.
-/

namespace Layering.Diagram.Architecture

/-! ## Drawings -/

/-- A directory and the components that are drawn in it. -/
structure Block where
  directory : String
  components : List Component

/-- The line that opens a block. -/
def openingLine (id text : String) : String := s!"  subgraph {id}[\"{text}\"]"

/-- The lines of a block. Services have a shape of their own. -/
def Block.lines (b : Block) : List String :=
  openingLine (nodeId b.directory) (escapeLabel b.directory) ::
    b.components.map (fun c =>
      if c.kind = "service" then s!"    {nodeId c.name}[[\"{label c}\"]]"
      else s!"    {nodeId c.name}[\"{label c}\"]") ++
    ["  end"]

/-- What an architecture diagram consists of. -/
structure Drawing where
  blocks : List Block
  /-- The arrows, each from a component to a name. -/
  arrows : List (Component × String)
  coloured : List String

/-- The components that are drawn. -/
def Drawing.components (d : Drawing) : List Component := d.blocks.flatMap (·.components)

/-- The lines of a drawing. -/
def Drawing.lines (d : Drawing) : List String :=
  "graph TD" :: d.blocks.flatMap Block.lines ++
    d.arrows.map (fun a => s!"  {nodeId a.1.name} --> {nodeId a.2}") ++
    d.coloured.map fun name => s!"  style {nodeId name} {entryStyle}"

/-- A drawing shows the components `kept` of a graph, with some paths as entry points. -/
structure Drawing.Shows (graph : Graph) (kept : List Component) (entryPoints : List String)
    (d : Drawing) : Prop where
  /-- No directory has two blocks. -/
  nodup_blocks : (d.blocks.map (·.directory)).Nodup
  /-- The directories with a block are those of the components, with a word for the root. -/
  mem_blocks : ∀ directory, directory ∈ d.blocks.map (·.directory) ↔
    ∃ c ∈ kept, (if c.directory = "" then "root" else c.directory) = directory
  /-- The blocks come in the order in which their directories first appear. -/
  blocks_in_order : (d.blocks.map (·.directory)).Pairwise fun a b =>
    (kept.map fun c => if c.directory = "" then "root" else c.directory).idxOf a <
      (kept.map fun c => if c.directory = "" then "root" else c.directory).idxOf b
  /-- Each component is drawn once. -/
  perm_components : d.components.Perm kept
  /-- It is drawn in the block of its own directory. -/
  own_block : ∀ b ∈ d.blocks, ∀ c ∈ b.components,
    (if c.directory = "" then "root" else c.directory) = b.directory
  /-- The components of a block come in the order of the graph. -/
  components_in_order : ∀ b ∈ d.blocks, b.components.Sublist graph.components
  /-- There is an arrow for each time that a component lists the name of one that is drawn. -/
  count_arrows : ∀ c name, d.arrows.count (c, name) =
    if name ∈ kept.map (·.name) then kept.count c * c.dependencies.count name else 0
  /-- Both ends of an arrow are drawn. -/
  arrows_drawn : ∀ a ∈ d.arrows, a.1 ∈ d.components ∧ a.2 ∈ d.components.map (·.name)
  /-- No name is coloured twice. -/
  nodup_coloured : d.coloured.Nodup
  /-- The names in colour are those of components that are drawn and that an entry point leads to. -/
  mem_coloured : ∀ name, name ∈ d.coloured ↔ name ∈ kept.map (·.name) ∧
    ∃ path ∈ entryPoints, ∃ c, graph.componentAt? path = some c ∧ c.name = name

/-! ## The drawing of components -/

/-- The arrows from a component to some names. -/
def arrowsFrom (names : List String) (c : Component) : List (Component × String) :=
  (c.dependencies.filter names.contains).map (c, ·)

/-- The block of a directory. -/
def blockOf (kept : List Component) (directory : String) : Block :=
  ⟨directory, kept.filter fun c => frameOf c = directory⟩

/-- The drawing of components. -/
def drawingOf (graph : Graph) (kept : List Component) (entryPoints : List String) : Drawing where
  blocks := (kept.map frameOf).eraseDups.map (blockOf kept)
  arrows := kept.flatMap (arrowsFrom (kept.map (·.name)))
  coloured := entryNames graph (kept.map (·.name)) entryPoints

variable {graph : Graph} {kept : List Component} {entryPoints : List String}

theorem map_directory_drawingOf :
    (drawingOf graph kept entryPoints).blocks.map (·.directory) = (kept.map frameOf).eraseDups := by
  rw [drawingOf, List.map_map]
  exact List.map_id _

theorem lines_drawingOf :
    (drawingOf graph kept entryPoints).lines = linesOf graph kept entryPoints := by
  have hblocks : (drawingOf graph kept entryPoints).blocks.flatMap Block.lines =
      (kept.map frameOf).eraseDups.flatMap (frameLines kept) := List.flatMap_map _ _ _
  have harrows : (drawingOf graph kept entryPoints).arrows.map
      (fun a => s!"  {nodeId a.1.name} --> {nodeId a.2}") =
      kept.flatMap (edgeLines (kept.map (·.name))) := by
    rw [drawingOf, List.map_flatMap]
    refine List.flatMap_congr fun c _ => ?_
    rw [arrowsFrom, List.map_map]
    rfl
  rw [Drawing.lines, hblocks, harrows]
  rfl

/-! ## Its components -/

theorem components_drawingOf :
    (drawingOf graph kept entryPoints).components =
      (kept.map frameOf).eraseDups.flatMap fun directory => kept.filter (frameOf · = directory) :=
  List.flatMap_map _ _ _

theorem perm_components_drawingOf : (drawingOf graph kept entryPoints).components.Perm kept := by
  rw [components_drawingOf]
  exact perm_groups frameOf kept

theorem components_of_mem_blocks {b : Block} (hb : b ∈ (drawingOf graph kept entryPoints).blocks) :
    b.components = kept.filter (frameOf · = b.directory) := by
  obtain ⟨directory, -, rfl⟩ := List.mem_map.mp hb
  rfl

/-! ## Its arrows -/

/-- The arrows of a component to a name are counted by its dependencies. -/
theorem count_arrowsFrom (names : List String) (b c : Component) (name : String) :
    (arrowsFrom names b).count (c, name) =
      if name ∈ names then (if b = c then c.dependencies.count name else 0) else 0 := by
  have hmem : (c, name) ∈ arrowsFrom names b → b = c ∧ name ∈ names := by
    intro h
    obtain ⟨n, hn, heq⟩ := List.mem_map.mp h
    obtain ⟨rfl, rfl⟩ := Prod.mk.inj heq
    exact ⟨rfl, List.contains_iff_mem.mp (List.mem_filter.mp hn).2⟩
  split
  · rename_i hname
    split
    · rename_i hbc
      subst hbc
      have hinjective : Function.Injective (Prod.mk b : String → Component × String) :=
        fun _ _ h => (Prod.mk.inj h).2
      rw [arrowsFrom, List.count_map_of_injective _ _ hinjective,
        List.count_filter (List.contains_iff_mem.mpr hname)]
    · rename_i hbc
      exact List.count_eq_zero.mpr fun h => hbc (hmem h).1
  · rename_i hname
    exact List.count_eq_zero.mpr fun h => hname (hmem h).2

theorem count_flatMap_arrowsFrom (names : List String) (l : List Component) (c : Component)
    (name : String) : (l.flatMap (arrowsFrom names)).count (c, name) =
      if name ∈ names then l.count c * c.dependencies.count name else 0 := by
  induction l with
  | nil => simp
  | cons b l ih =>
    rw [List.flatMap_cons, List.count_append, ih, count_arrowsFrom, List.count_cons]
    by_cases hname : name ∈ names
    · by_cases hbc : b = c
      · simp [hname, hbc, Nat.add_mul, Nat.add_comm]
      · simp [hname, hbc]
    · simp [hname]

/-- The arrows lead from components to names of components. -/
theorem mem_arrows_drawingOf {a : Component × String}
    (ha : a ∈ (drawingOf graph kept entryPoints).arrows) :
    a.1 ∈ kept ∧ a.2 ∈ kept.map (·.name) := by
  obtain ⟨c, hc, hac⟩ := List.mem_flatMap.mp ha
  obtain ⟨name, hname, rfl⟩ := List.mem_map.mp hac
  exact ⟨hc, List.contains_iff_mem.mp (List.mem_filter.mp hname).2⟩

/-! ## Its colours -/

theorem mem_entryNames {names : List String} {name : String} :
    name ∈ entryNames graph names entryPoints ↔ name ∈ names ∧
      ∃ path ∈ entryPoints, ∃ c, graph.componentAt? path = some c ∧ c.name = name := by
  rw [entryNames, List.mem_eraseDups, List.mem_filter, List.contains_iff_mem, and_comm]
  refine and_congr_right fun _ => ?_
  constructor
  · intro h
    obtain ⟨c, hc, hname⟩ := List.mem_map.mp h
    obtain ⟨path, hpath, hat⟩ := List.mem_filterMap.mp hc
    exact ⟨path, hpath, c, hat, hname⟩
  · rintro ⟨path, hpath, c, hat, hname⟩
    exact List.mem_map.mpr ⟨c, List.mem_filterMap.mpr ⟨path, hpath, hat⟩, hname⟩

/-- The drawing of components shows them. -/
theorem shows_drawingOf (hkept : kept.Sublist graph.components) :
    (drawingOf graph kept entryPoints).Shows graph kept entryPoints where
  nodup_blocks := by
    rw [map_directory_drawingOf]
    exact nodup_eraseDups _
  mem_blocks := fun directory => by
    rw [map_directory_drawingOf, List.mem_eraseDups]
    exact List.mem_map
  blocks_in_order := by
    rw [map_directory_drawingOf]
    exact pairwise_idxOf_eraseDups _
  perm_components := perm_components_drawingOf
  own_block := fun b hb c hc => by
    rw [components_of_mem_blocks hb] at hc
    exact of_decide_eq_true (List.mem_filter.mp hc).2
  components_in_order := fun b hb => by
    rw [components_of_mem_blocks hb]
    exact List.filter_sublist.trans hkept
  count_arrows := count_flatMap_arrowsFrom _ _
  arrows_drawn := fun a ha => by
    obtain ⟨hsource, htarget⟩ := mem_arrows_drawingOf ha
    exact ⟨perm_components_drawingOf.mem_iff.mpr hsource,
      (perm_components_drawingOf.map _).mem_iff.mpr htarget⟩
  nodup_coloured := nodup_eraseDups _
  mem_coloured := fun _ => mem_entryNames

/-! ## Diagrams -/

theorem inFocus_sublist (graph : Graph) (focus : Option String) :
    (inFocus graph focus).Sublist graph.components := by
  cases focus with
  | none => exact .refl _
  | some f =>
    rw [inFocus]
    split
    · exact .refl _
    · exact List.filter_sublist

theorem lines_of_inFocus_ne_nil {focus : Option String} (h : inFocus graph focus ≠ []) :
    lines graph focus entryPoints = linesOf graph (inFocus graph focus) entryPoints := by
  unfold lines
  split
  · rename_i hnil
    exact absurd hnil h
  · rfl

theorem isEncodable_frameOf (c : Component) :
    Text.isEncodable (frameOf c) = Text.isEncodable c.directory := by
  unfold frameOf
  split
  · rename_i hroot
    rw [hroot]
    decide +kernel
  · rfl

theorem all_isEncodable_names (graph : Graph) (focus : Option String) :
    (Diagram.names graph .architecture focus).all Text.isEncodable =
      (inFocus graph focus).all fun c => Text.isEncodable c.name && Text.isEncodable c.directory := by
  have hnames : Diagram.names graph .architecture focus =
      (inFocus graph focus).map frameOf ++ (inFocus graph focus).map (·.name) := rfl
  rw [hnames, List.all_append, List.all_map, List.all_map, Bool.eq_iff_iff, Bool.and_eq_true,
    List.all_eq_true, List.all_eq_true, List.all_eq_true]
  constructor
  · intro ⟨hframe, hname⟩ c hc
    rw [Bool.and_eq_true, ← isEncodable_frameOf]
    exact ⟨hname c hc, hframe c hc⟩
  · intro h
    have hboth : ∀ c ∈ inFocus graph focus, _ := fun c hc => (Bool.and_eq_true _ _).mp (h c hc)
    exact ⟨fun c hc => (isEncodable_frameOf c).trans (hboth c hc).2, fun c hc => (hboth c hc).1⟩

/-- **An architecture diagram divides the components up faithfully.** If some component is in focus, the
lines of the diagram are those of a drawing that shows the components in focus: one block for each of
their directories, in the order in which these first appear; each component once, in the block of its
own directory and in the order of the graph; one arrow for each time that a component lists the name of
another in focus, with both ends drawn; and in colour, each once, the names of components in focus that
an entry point leads to. The diagram is these lines, and there is none exactly if the name or the
directory of a component in focus cannot be encoded. -/
theorem render_shows_components (graph : Graph) (focus : Option String) (entryPoints : List String)
    (h : inFocus graph focus ≠ []) :
    ∃ d : Drawing, Diagram.lines graph .architecture focus entryPoints = d.lines ∧
      d.Shows graph (inFocus graph focus) entryPoints ∧
      render graph .architecture focus entryPoints =
        if (inFocus graph focus).all fun c => Text.isEncodable c.name && Text.isEncodable c.directory
        then .ok ("\n".intercalate d.lines)
        else .error .unencodable := by
  have hlines : Diagram.lines graph .architecture focus entryPoints =
      (drawingOf graph (inFocus graph focus) entryPoints).lines := by
    rw [lines_drawingOf]
    exact lines_of_inFocus_ne_nil h
  refine ⟨drawingOf graph (inFocus graph focus) entryPoints, hlines,
    shows_drawingOf (inFocus_sublist graph focus), ?_⟩
  rw [render, all_isEncodable_names, hlines]

/-- A graph with a repeated name, a file outside all directories, and one that is not in focus below. -/
def shop : Graph where
  components := [
    ⟨"cart", "src/shop/cart.ts", "src/shop", "service", "cart", [], ["price", "view", "view"]⟩,
    ⟨"view", "shop.ts", "", "file", "view", [], ["cart"]⟩,
    ⟨"price", "src/price.ts", "src", "file", "price", [], []⟩,
    ⟨"view", "src/shop/view.ts", "src/shop", "file", "view", [], []⟩]
  rootPath := ""
  languages := []
  directories := []

/-- A graph with one component, named after a file whose name is a byte without a meaning. -/
def undecodable : Graph where
  components := [⟨String.singleton (Text.ofCodePoint 0xdcff), "src/x.ts", "", "file", "", [], []⟩]
  rootPath := ""
  languages := []
  directories := []

theorem render_shows_components_shop :
    inFocus shop (some "shop") ≠ [] ∧
      (∃ d : Drawing, d.Shows shop (inFocus shop (some "shop")) ["shop.ts", "src/shop/view.ts"] ∧
        render shop .architecture (some "shop") ["shop.ts", "src/shop/view.ts"] =
          .ok ("\n".intercalate d.lines)) ∧
      render undecodable .architecture none [] = .error .unencodable := by
  have hfocus : inFocus shop (some "shop") ≠ [] := by decide +kernel
  obtain ⟨d, -, hshows, hrender⟩ := render_shows_components shop (some "shop")
    ["shop.ts", "src/shop/view.ts"] hfocus
  obtain ⟨_, -, -, hfails⟩ := render_shows_components undecodable none [] (List.cons_ne_nil _ _)
  rw [if_pos (by decide +kernel)] at hrender
  rw [if_neg (by decide +kernel)] at hfails
  exact ⟨hfocus, ⟨d, hshows, hrender⟩, hfails⟩

end Layering.Diagram.Architecture
