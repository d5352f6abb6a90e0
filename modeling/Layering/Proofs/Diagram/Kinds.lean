import Layering.Proofs.Diagram.Architecture
import Layering.Proofs.Diagram.Identifier

/-!
# Nodes of different kinds

A diagram has nodes of different kinds: components, packages from outside, and directories. Each has the
identifier of its name, and the identifier says nothing about the kind. So a component shares its node
with a package or with a directory exactly if their names are alike (`Alike`), and in particular if they
have the same name. In the lines of the diagrams this shows where a node is declared to be a package or
a directory: which identifiers stand there is read off the words of the lines (`wordAt`). The main
result is `node_kinds_share_ids`.
-/

namespace Layering.Diagram

open Architecture

/-- Two names are alike if they have the same stem and their digests begin with the same six digits. -/
def Alike (a b : String) : Prop :=
  idStem a.toList = idStem b.toList ∧ (Md5.hexDigest a).take 6 = (Md5.hexDigest b).take 6

theorem Alike.refl (a : String) : Alike a a := ⟨rfl, rfl⟩

theorem nodeId_eq_iff_alike (a b : String) : nodeId a = nodeId b ↔ Alike a b :=
  nodeIdWith_eq_iff isDigest_hexDigest a b

/-! ## Characters of identifiers -/

theorem isIdChar_of_mem_idStem {name : List Char} : ∀ c ∈ idStem name, isIdChar c = true := by
  have hbase : ∀ c ∈ name.map fun c => if isIdChar c then c else '_', isIdChar c = true := by
    intro c hc
    obtain ⟨x, -, rfl⟩ := List.mem_map.mp hc
    split
    · assumption
    · decide
  unfold idStem
  dsimp only
  split
  · exact List.forall_mem_cons.mpr ⟨by decide, hbase⟩
  · exact hbase

theorem isIdChar_of_mem_hexLetters {c : Char} (h : c ∈ hexLetters) : isIdChar c = true := by
  have hall : "0123456789abcdef".toList.all isIdChar = true := by decide
  exact List.all_eq_true.mp hall c (List.mem_toFinset.mp h)

theorem toList_nodeId (name : String) :
    (nodeId name).toList = idStem name.toList ++ '_' :: (Md5.hexDigest name).take 6 := by
  rw [nodeId, nodeIdWith, String.toList_ofList]

theorem isIdChar_of_mem_nodeId (name : String) : ∀ c ∈ (nodeId name).toList, isIdChar c = true := by
  rw [toList_nodeId]
  refine List.forall_mem_append.mpr ⟨isIdChar_of_mem_idStem, List.forall_mem_cons.mpr ⟨by decide, ?_⟩⟩
  intro c hc
  exact isIdChar_of_mem_hexLetters
    ((isDigest_hexDigest name).mem_hexLetters c (List.mem_of_mem_take hc))

theorem underscore_mem_nodeId (name : String) : '_' ∈ (nodeId name).toList := by
  rw [toList_nodeId]
  simp

/-! ## Words of a line -/

/-- The word that stands in a line behind its first `k` characters. -/
def wordAt (k : ℕ) (line : String) : List Char := (line.toList.drop k).takeWhile isIdChar

theorem wordAt_append {k : ℕ} {before word after : String} {sign : Char} {rest : List Char}
    (hk : before.length = k) (hword : ∀ c ∈ word.toList, isIdChar c = true)
    (hafter : after.toList = sign :: rest) (hsign : isIdChar sign = false) :
    wordAt k (before ++ word ++ after) = word.toList := by
  rw [wordAt, String.append_assoc, String.toList_append, ← hk, ← String.length_toList, List.drop_left,
    String.toList_append, List.takeWhile_append_of_pos hword, hafter,
    List.takeWhile_cons_of_neg (by rw [hsign]; decide), List.append_nil]

theorem packageLine_eq (c : Component) (package : String) : Dependency.packageLine c package =
    "  " ++ nodeId package ++ ("[\"" ++ escapeLabel package ++ "\"] --> " ++ nodeId c.name) := by
  unfold Dependency.packageLine
  simp only [String.append_assoc]
  rfl

theorem edgeLine_eq (source target : String) :
    edgeLine source target = "  " ++ nodeId source ++ (" --> " ++ nodeId target) := by
  unfold edgeLine
  simp only [String.append_assoc]
  rfl

theorem openingLine_eq (id text : String) :
    openingLine id text = "  subgraph " ++ id ++ ("[\"" ++ text ++ "\"]") := by
  unfold openingLine
  simp only [String.append_assoc]
  rfl

theorem packageStyleLine_eq (name : String) : Dependency.styleLine name =
    "  style " ++ nodeId name ++ (" " ++ Dependency.packageStyle) := by
  unfold Dependency.styleLine
  simp only [String.append_assoc]
  rfl

/-! The line of an arrow begins with an identifier. -/

theorem wordAt_packageLine (c : Component) (package : String) :
    wordAt 2 (Dependency.packageLine c package) = (nodeId package).toList := by
  rw [packageLine_eq]
  exact wordAt_append rfl (isIdChar_of_mem_nodeId package) (by simp only [String.toList_append]; rfl) rfl

theorem wordAt_edgeLine (source target : String) :
    wordAt 2 (edgeLine source target) = (nodeId source).toList := by
  rw [edgeLine_eq]
  exact wordAt_append rfl (isIdChar_of_mem_nodeId source) (by simp only [String.toList_append]; rfl) rfl

/-! The line that opens a block and the line that colours a package begin with a word of their own, and
the identifier follows. -/

theorem wordAt_openingLine (id text : String) :
    wordAt 2 (openingLine id text) = "subgraph".toList := by
  rw [openingLine_eq, String.append_assoc, wordAt, String.toList_append]
  rfl

theorem idAt_openingLine (name text : String) :
    wordAt 11 (openingLine (nodeId name) text) = (nodeId name).toList := by
  rw [openingLine_eq]
  exact wordAt_append rfl (isIdChar_of_mem_nodeId name) (by simp only [String.toList_append]; rfl) rfl

theorem wordAt_packageStyleLine (name : String) :
    wordAt 2 (Dependency.styleLine name) = "style".toList := by
  rw [packageStyleLine_eq, String.append_assoc, wordAt, String.toList_append]
  rfl

theorem idAt_packageStyleLine (name : String) :
    wordAt 8 (Dependency.styleLine name) = (nodeId name).toList := by
  rw [packageStyleLine_eq]
  exact wordAt_append rfl (isIdChar_of_mem_nodeId name) (by simp only [String.toList_append]; rfl) rfl

/-! The other lines of an architecture diagram begin with other words, or with a blank. -/

theorem wordAt_nodeLine (c : Component) : wordAt 2 (nodeLine c) = [] := by
  have hblank : ∀ rest : String, wordAt 2 ("    " ++ rest) = [] := by
    intro rest
    rw [wordAt, String.toList_append]
    rfl
  unfold nodeLine
  dsimp only
  split
  all_goals
    simp only [String.append_assoc]
    exact hblank _

theorem wordAt_entryStyleLine (name : String) :
    wordAt 2 (Architecture.styleLine name) = "style".toList := by
  unfold Architecture.styleLine
  rw [String.append_assoc, String.append_assoc, wordAt, String.toList_append]
  rfl

theorem wordAt_emptyLine (focus : Option String) : wordAt 2 (emptyLine focus) = "Note".toList := by
  unfold emptyLine
  dsimp only
  rw [String.append_assoc, wordAt, String.toList_append]
  rfl

/-! ## Packages -/

theorem dependencyLines_of_eq_nil {graph : Graph} {focus : Option String} (h : inFocus graph focus = []) :
    Dependency.lines graph focus = ["graph LR", "  Note[\"No components found\"]"] := by
  rw [Dependency.lines, h]

theorem dependencyLines_of_ne_nil {graph : Graph} {focus : Option String}
    (h : inFocus graph focus ≠ []) :
    Dependency.lines graph focus = ["graph LR"] ++
      ((inFocus graph focus).flatMap
        (Dependency.componentLines ((inFocus graph focus).map (·.name)))).eraseDups ++
      ((inFocus graph focus).flatMap Dependency.packages).eraseDups.map Dependency.styleLine := by
  unfold Dependency.lines
  split
  · rename_i hnil
    exact absurd hnil h
  · rfl

theorem underscore_mem_componentLines {names : List String} {c : Component} {line : String}
    (h : line ∈ Dependency.componentLines names c) : '_' ∈ wordAt 2 line := by
  rcases List.mem_append.mp h with h | h
  · obtain ⟨package, -, rfl⟩ := List.mem_map.mp h
    rw [wordAt_packageLine]
    exact underscore_mem_nodeId package
  · obtain ⟨target, -, rfl⟩ := List.mem_map.mp h
    rw [wordAt_edgeLine]
    exact underscore_mem_nodeId c.name

/-- A node is coloured as a package exactly if it has the identifier of one. -/
theorem packageStyleLine_mem_iff (graph : Graph) (focus : Option String) (name : String) :
    Dependency.styleLine name ∈ Dependency.lines graph focus ↔
      ∃ c ∈ inFocus graph focus, ∃ package ∈ Dependency.packages c, Alike package name := by
  constructor
  · intro h
    have hword := wordAt_packageStyleLine name
    by_cases hfocus : inFocus graph focus = []
    · rw [dependencyLines_of_eq_nil hfocus, List.mem_pair] at h
      rcases h with h | h
      all_goals
        rw [h] at hword
        exact absurd hword (by decide)
    · rw [dependencyLines_of_ne_nil hfocus, List.mem_append, List.mem_append, List.mem_singleton,
        List.mem_eraseDups, List.mem_flatMap, List.mem_map] at h
      rcases h with (h | ⟨c, -, h⟩) | ⟨package, hpackage, h⟩
      · rw [h] at hword
        exact absurd hword (by decide)
      · have hmem := underscore_mem_componentLines h
        rw [hword] at hmem
        exact absurd hmem (by decide)
      · obtain ⟨c, hc, hpackage⟩ := List.mem_flatMap.mp (List.mem_eraseDups.mp hpackage)
        have hid := idAt_packageStyleLine package
        rw [h, idAt_packageStyleLine, String.toList_inj] at hid
        exact ⟨c, hc, package, hpackage, (nodeId_eq_iff_alike _ _).mp hid.symm⟩
  · rintro ⟨c, hc, package, hpackage, halike⟩
    have hline : Dependency.styleLine name = Dependency.styleLine package := by
      rw [Dependency.styleLine, Dependency.styleLine, (nodeId_eq_iff_alike _ _).mpr halike]
    rw [hline, dependencyLines_of_ne_nil (List.ne_nil_of_mem hc)]
    refine List.mem_append_right _ (List.mem_map_of_mem (List.mem_eraseDups.mpr ?_))
    exact List.mem_flatMap.mpr ⟨c, hc, hpackage⟩

/-! ## Directories -/

theorem architectureLines_of_eq_nil {graph : Graph} {focus : Option String} {entryPoints : List String}
    (h : inFocus graph focus = []) :
    Architecture.lines graph focus entryPoints = ["graph TD", emptyLine focus] := by
  rw [Architecture.lines, h]

/-- In a block only the first line opens one. -/
theorem directory_of_openingLine_mem {b : Block} {name text : String}
    (h : openingLine (nodeId name) text ∈ b.lines) : nodeId b.directory = nodeId name := by
  have hword := wordAt_openingLine (nodeId name) text
  rw [Block.lines, List.mem_append, List.mem_cons, List.mem_map, List.mem_singleton] at h
  rcases h with (h | ⟨c, -, (h : nodeLine c = _)⟩) | h
  · have hid := idAt_openingLine name text
    rwa [h, idAt_openingLine, String.toList_inj] at hid
  · rw [← h, wordAt_nodeLine] at hword
    exact absurd hword (by decide)
  · rw [h] at hword
    exact absurd hword (by decide)

/-- In a drawing only blocks are opened. -/
theorem exists_block_of_openingLine_mem {d : Drawing} {name text : String}
    (h : openingLine (nodeId name) text ∈ d.lines) :
    ∃ b ∈ d.blocks, nodeId b.directory = nodeId name := by
  have hword := wordAt_openingLine (nodeId name) text
  rw [Drawing.lines, List.mem_append, List.mem_append, List.mem_cons, List.mem_flatMap, List.mem_map,
    List.mem_map] at h
  rcases h with ((h | ⟨b, hb, h⟩) | ⟨a, -, (h : edgeLine a.1.name a.2 = _)⟩) |
    ⟨n, -, (h : Architecture.styleLine n = _)⟩
  · rw [h] at hword
    exact absurd hword (by decide)
  · exact ⟨b, hb, directory_of_openingLine_mem h⟩
  · -- an identifier has an underscore, and the word of an opening line has none
    have hmem := underscore_mem_nodeId a.1.name
    rw [← wordAt_edgeLine a.1.name a.2, h, hword] at hmem
    exact absurd hmem (by decide)
  · rw [← h, wordAt_entryStyleLine] at hword
    exact absurd hword (by decide)

/-- A block is opened with an identifier exactly if that is the identifier of a directory. -/
theorem openingLine_mem_iff (graph : Graph) (focus : Option String) (entryPoints : List String)
    (name : String) :
    (∃ text, openingLine (nodeId name) text ∈ Architecture.lines graph focus entryPoints) ↔
      ∃ c ∈ inFocus graph focus, Alike (frameOf c) name := by
  by_cases hfocus : inFocus graph focus = []
  · rw [architectureLines_of_eq_nil hfocus, hfocus]
    constructor
    · rintro ⟨text, h⟩
      have hword := wordAt_openingLine (nodeId name) text
      rcases List.mem_pair.mp h with h | h
      · rw [h] at hword
        exact absurd hword (by decide)
      · rw [h, wordAt_emptyLine] at hword
        exact absurd hword (by decide)
    · rintro ⟨c, hc, -⟩
      cases hc
  · rw [lines_of_inFocus_ne_nil hfocus, ← lines_drawingOf]
    have hblocks : ∀ directory, directory ∈ (drawingOf graph (inFocus graph focus)
        entryPoints).blocks.map (·.directory) ↔ ∃ c ∈ inFocus graph focus, frameOf c = directory :=
      (shows_drawingOf (inFocus_sublist graph focus)).mem_blocks
    constructor
    · rintro ⟨text, h⟩
      obtain ⟨b, hb, hid⟩ := exists_block_of_openingLine_mem h
      obtain ⟨c, hc, hframe⟩ := (hblocks b.directory).mp (List.mem_map_of_mem hb)
      exact ⟨c, hc, (nodeId_eq_iff_alike _ _).mp (hframe ▸ hid)⟩
    · rintro ⟨c, hc, halike⟩
      obtain ⟨b, hb, hdirectory⟩ := List.mem_map.mp ((hblocks (frameOf c)).mpr ⟨c, hc, rfl⟩)
      refine ⟨escapeLabel b.directory, List.mem_append_left _ (List.mem_append_left _ ?_)⟩
      rw [← (nodeId_eq_iff_alike _ _).mpr halike, ← hdirectory]
      exact List.mem_cons_of_mem _ (List.mem_flatMap.mpr ⟨b, hb, List.mem_cons_self⟩)

/-- **Nodes of different kinds share identifiers when their names are alike.** Two names have the same
identifier exactly if they are alike. The dependency diagram colours the node of a name as a package
exactly if a package that is imported in it has a name alike, and the architecture diagram opens a block
with the identifier of a name exactly if a directory in it has a name alike; whether the name is that of
a component makes no difference. -/
theorem node_kinds_share_ids (graph : Graph) (focus : Option String) (entryPoints : List String)
    (name : String) :
    (∀ other, nodeId other = nodeId name ↔ Alike other name) ∧
    (Dependency.styleLine name ∈ Dependency.lines graph focus ↔
      ∃ c ∈ inFocus graph focus, ∃ package ∈ Dependency.packages c, Alike package name) ∧
    ((∃ text, openingLine (nodeId name) text ∈ Architecture.lines graph focus entryPoints) ↔
      ∃ c ∈ inFocus graph focus, Alike (frameOf c) name) := by
  refine ⟨fun other => nodeId_eq_iff_alike other name, ?_, ?_⟩
  · exact packageStyleLine_mem_iff graph focus name
  · exact openingLine_mem_iff graph focus entryPoints name

/-- A file that has the name of its directory. -/
def namesakeOfDirectory : Component := ⟨"ui", "ui/ui.ts", "ui", "file", "", [], []⟩

/-- A graph with such a file, and with one that has the name of a package which another one imports. -/
def namesakes : Graph where
  components := [
    ⟨"app", "ui/app.ts", "ui", "file", "",
      [⟨"react", some (.number 1)⟩, ⟨"./react", some (.number 2)⟩], ["react"]⟩,
    ⟨"react", "ui/react.ts", "ui", "file", "", [], []⟩,
    namesakeOfDirectory]
  rootPath := ""
  languages := []
  directories := []

/-- The node of the file `react`, to which an arrow leads, is coloured as a package, and the file `ui` is
drawn in a block with its own identifier. -/
theorem node_kinds_share_ids_namesakes :
    edgeLine "app" "react" ∈ Dependency.lines namesakes none ∧
      Dependency.styleLine "react" ∈ Dependency.lines namesakes none ∧
      nodeLine namesakeOfDirectory ∈ Architecture.lines namesakes none [] ∧
      ∃ text, openingLine (nodeId "ui") text ∈ Architecture.lines namesakes none [] := by
  refine ⟨by decide +kernel, ?_, by decide +kernel, ?_⟩
  · refine (node_kinds_share_ids namesakes none [] "react").2.1.mpr ⟨_, List.mem_cons_self, "react", ?_⟩
    exact ⟨by decide +kernel, .refl _⟩
  · exact (node_kinds_share_ids namesakes none [] "ui").2.2.mpr ⟨_, List.mem_cons_self, .refl _⟩

end Layering.Diagram
