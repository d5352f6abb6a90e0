import Layering.Proofs.Files.Search
import Layering.Proofs.Glob.Subtree
import Layering.Proofs.Source.Components

/-!
# Discovery and path patterns

The same texts are used as patterns in two ways. A search walks the directories of a project along the
parts of a pattern to find files, while a compiled pattern is compared with the path of a file to leave
it out. The parts of a search take the names that are derived from the segments of its pattern
(`Search.takes_iff_derives`), which are also the names of the paths that the compiled pattern matches,
so the two agree on patterns with wildcards that end with a name (`discover_matches`). They part on
patterns that end with `**`: a search for `d/**` ends at directories and finds no file, whereas the
compiled pattern matches every file below `d` (`discover_subtree`).

A search fails when a segment without wildcards is too long for a name and is looked up in some
directory, or when the file system is asked about a path that is too long (`IsTooLong`). The search for
all files asks about every path in the tree (`isTooLong_anyFile_iff`).
-/

namespace Layering

open PathText Text

namespace PathText

theorem nil_mem_segments_of_head? {p : List Char} (h : p.head? = some '/') : [] ∈ segments p := by
  obtain ⟨rest, rfl⟩ := List.head?_eq_some_iff.mp h
  rw [← List.nil_append ('/' :: rest), segments_append_slash, segments_nil]
  exact List.mem_append_left _ List.mem_cons_self

theorem nil_mem_segments_of_getLast? {p : List Char} (h : p.getLast? = some '/') :
    [] ∈ segments p := by
  obtain ⟨front, rfl⟩ := List.getLast?_eq_some_iff.mp h
  rw [segments_append_slash, segments_nil]
  exact List.mem_append_right _ List.mem_cons_self

end PathText

namespace Glob

/-! ## Derivations, segment by segment -/

theorem derives_doubleStar_cons_iff {ss names : List (List Char)} :
    Derives true (doubleStar :: ss) names ↔
      ∃ taken rest, names = taken ++ rest ∧ Derives true ss rest := by
  constructor
  · intro h
    cases h with
    | segment hne => exact absurd rfl hne
    | anyDepth _ hrest => exact ⟨_, _, rfl, hrest⟩
  · rintro ⟨taken, rest, rfl, hrest⟩
    exact .anyDepth (fun hdot => by cases hdot) hrest

theorem derives_cons_iff_of_ne {s : List Char} (hs : s ≠ doubleStar) {ss names : List (List Char)} :
    Derives true (s :: ss) names ↔
      ∃ name rest, names = name :: rest ∧ matchesName s name = true ∧ Derives true ss rest := by
  constructor
  · intro h
    cases h with
    | segment _ hmatch _ hrest => exact ⟨_, _, rfl, hmatch, hrest⟩
    | anyDepth => exact absurd rfl hs
  · rintro ⟨name, rest, rfl, hmatch, hrest⟩
    exact .segment hs hmatch (fun hdot => by cases hdot) hrest

/-- A path of names is compared with a pattern as it is. -/
theorem trimmed_of_isName {p : List Char} (hback : '\\' ∉ p) (h : ∀ s ∈ segments p, IsName s) :
    trimmed p = p := by
  have hlast : p.getLast? ≠ some '/' := fun hlast =>
    (h [] (nil_mem_segments_of_getLast? hlast)).ne_nil rfl
  rw [trimmed, relative_of_isName hback h, dropRight_of_getLast?_ne hlast]

/-- A star matches every name. -/
theorem matchesName_star (name : List Char) : matchesName ['*'] name = true := by
  have htakes : (Item.step .star).Takes name := .many fun _ _ => rfl
  refine accepts_iff.mpr ?_
  rw [← List.append_nil name]
  exact .cons htakes .nil

theorem derives_anyFile {names : List (List Char)} (h : names ≠ []) :
    Derives true [doubleStar, ['*']] names := by
  refine derives_doubleStar_cons_iff.mpr
    ⟨_, _, (List.dropLast_append_getLast h).symm, (derives_cons_iff_of_ne (by decide)).mpr ?_⟩
  exact ⟨_, _, rfl, matchesName_star _, .nil⟩

theorem segments_subtreeGlob (p : List Char) :
    segments (subtreeGlob p) = segments p ++ [doubleStar] := by
  rw [subtreeGlob, segments_append_slash, segments_of_not_mem (p := doubleStar) (by decide)]

end Glob

open Glob

/-! ## Segments as parts of a search -/

namespace Search

/-- The part of a search that a segment of a pattern stands for. -/
def segmentPart (s : List Char) : SearchPart :=
  if s = doubleStar then .deep
  else if hasWildcard s then .wild s
  else .name (String.ofList s)

theorem partOf_ofList {s : List Char} (h : doubleStar <:+: s → s = doubleStar) :
    partOf (String.ofList s) = .ok (segmentPart s) := by
  have hstars : String.ofList s = "**" ↔ s = doubleStar := by
    rw [← String.toList_inj, String.toList_ofList]
    rfl
  rw [partOf, segmentPart, String.toList_ofList]
  by_cases hs : s = doubleStar
  · rw [if_pos (hstars.mpr hs), if_pos hs]
  · have hnot : ¬occursIn ['*', '*'] s = true := fun hocc => hs (h (occursIn_iff.mp hocc))
    rw [if_neg (hstars.not.mpr hs), if_neg hs, if_neg hnot]
    exact (apply_ite Except.ok _ _ _).symm

theorem mapM_partOf {ss : List (List Char)} (h : ∀ s ∈ ss, doubleStar <:+: s → s = doubleStar) :
    (ss.map String.ofList).mapM partOf = .ok (ss.map segmentPart) := by
  induction ss with
  | nil => rfl
  | cons s ss ih =>
    obtain ⟨hs, hss⟩ := List.forall_mem_cons.mp h
    rw [List.map_cons, List.mapM_cons, partOf_ofList hs, ih hss]
    rfl

theorem segmentPart_takes_iff {s : List Char} (hs : s ≠ doubleStar) {names : List String} :
    (segmentPart s).Takes names ↔ ∃ n, names = [n] ∧ matchesName s n.toList = true := by
  rw [segmentPart, if_neg hs]
  by_cases hwild : hasWildcard s = true
  · rw [if_pos hwild]
    constructor
    · rintro (- | hmatch | -)
      exact ⟨_, rfl, hmatch⟩
    · rintro ⟨n, rfl, hmatch⟩
      exact .wild hmatch
  · rw [if_neg hwild]
    have heq : ∀ n : String, matchesName s n.toList = true ↔ String.ofList s = n := by
      intro n
      rw [matchesName_iff_eq (Bool.eq_false_iff.mpr hwild), ← String.toList_inj,
        String.toList_ofList]
    simp only [heq]
    constructor
    · rintro ⟨⟩
      exact ⟨_, rfl, rfl⟩
    · rintro ⟨n, rfl, rfl⟩
      exact .name _

/-- The parts of a search take the names that are derived from the segments. -/
theorem takes_iff_derives {ss : List (List Char)} {names : List String} :
    Takes (ss.map segmentPart) names ↔ Derives true ss (names.map String.toList) := by
  induction ss generalizing names with
  | nil =>
    constructor
    · rintro ⟨⟩
      exact .nil
    · intro h
      generalize hnames : names.map String.toList = texts at h
      cases h
      rw [List.map_eq_nil_iff.mp hnames]
      exact .nil
  | cons s ss ih =>
    rw [List.map_cons, takes_cons_iff]
    by_cases hs : s = doubleStar
    · subst hs
      rw [derives_doubleStar_cons_iff]
      constructor
      · rintro ⟨front, rest, rfl, -, hrest⟩
        exact ⟨_, _, List.map_append, ih.mp hrest⟩
      · rintro ⟨taken, rest, hnames, hrest⟩
        obtain ⟨front, back, rfl, rfl, rfl⟩ := List.map_eq_append_iff.mp hnames
        exact ⟨front, back, rfl, .deep front, ih.mpr hrest⟩
    · rw [derives_cons_iff_of_ne hs]
      simp only [segmentPart_takes_iff hs]
      constructor
      · rintro ⟨_, rest, rfl, ⟨n, rfl, hmatch⟩, hrest⟩
        exact ⟨n.toList, _, rfl, hmatch, ih.mp hrest⟩
      · rintro ⟨name, rest, hnames, hmatch, hrest⟩
        obtain ⟨n, back, rfl, rfl, rfl⟩ := List.map_eq_cons_iff.mp hnames
        exact ⟨[n], back, rfl, ⟨n, rfl, hmatch⟩, ih.mpr hrest⟩

/-- The search with one part for each segment of a pattern. -/
def ofPattern (p : String) : Search := ⟨(segments p.toList).map segmentPart, false⟩

/-- It is the search of a pattern in which no segment is empty or `.` and `**` stands alone. -/
theorem parse_eq {p : String} (hnames : ∀ s ∈ segments p.toList, s ≠ [] ∧ s ≠ here)
    (hstars : ∀ s ∈ segments p.toList, doubleStar <:+: s → s = doubleStar) :
    parse p = .ok (ofPattern p) := by
  have hroot : rootSlashes p.toList = 0 := rootSlashes_of_isRelative fun hhead =>
    (hnames [] (nil_mem_segments_of_head? hhead)).1 rfl
  have hlast : (p.toList.getLast? == some '/') = false := beq_eq_false_iff_ne.mpr fun hlast =>
    (hnames [] (nil_mem_segments_of_getLast? hlast)).1 rfl
  have hkept : (segments p.toList).filter (fun n => n ≠ [] ∧ n ≠ here) = segments p.toList :=
    List.filter_eq_self.mpr fun s hs => decide_eq_true (hnames s hs)
  have hne : ((segments p.toList).map String.ofList).isEmpty = false := by
    simpa using segments_ne_nil p.toList
  simp only [parse, Path.parse, hroot, hlast, hkept, hne]
  rw [mapM_partOf hstars]
  rfl

/-- Whether a segment without wildcards that is too long for a name is looked up in a directory that
the segments before it lead to. -/
def AsksLongName (t : Tree) (ss : List (List Char)) : Prop :=
  ∃ front s back, ss = front ++ s :: back ∧ hasWildcard s = false ∧
    Path.isLongName (String.ofList s) = true ∧
    ∃ names d, Derives true front (names.map String.toList) ∧ t.below? names = some d ∧
      d.isDir = true

theorem segmentPart_eq_name_iff {s : List Char} {n : String} :
    segmentPart s = .name n ↔ hasWildcard s = false ∧ String.ofList s = n := by
  unfold segmentPart
  split
  · rename_i hs
    refine iff_of_false (by simp) fun ⟨hplain, _⟩ => ?_
    rw [hs] at hplain
    cases hplain
  · split
    · rename_i hwild
      simp [hwild]
    · rename_i hwild
      simp [hwild]

theorem looksUpLongName_iff {ss : List (List Char)} {t : Tree} :
    LooksUpLongName (ss.map segmentPart) t ↔ AsksLongName t ss := by
  constructor
  · rintro ⟨front, n, back, hparts, hlong, names, d, htakes, hd⟩
    obtain ⟨front, rest, rfl, rfl, hrest⟩ := List.map_eq_append_iff.mp hparts
    obtain ⟨s, back, rfl, hs, -⟩ := List.map_eq_cons_iff.mp hrest
    obtain ⟨hplain, rfl⟩ := segmentPart_eq_name_iff.mp hs
    exact ⟨front, s, back, rfl, hplain, hlong, names, d, takes_iff_derives.mp htakes, hd⟩
  · rintro ⟨front, s, back, rfl, hplain, hlong, names, d, hderives, hd⟩
    refine ⟨front.map segmentPart, String.ofList s, back.map segmentPart, ?_, hlong, names, d,
      takes_iff_derives.mpr hderives, hd⟩
    rw [List.map_append, List.map_cons, segmentPart_eq_name_iff.mpr ⟨hplain, rfl⟩]

theorem getLast?_map_segmentPart {ss : List (List Char)} :
    (ss.map segmentPart).getLast? = some .deep ↔ ss.getLast? = some doubleStar := by
  have hdeep : ∀ s, segmentPart s = .deep ↔ s = doubleStar := by
    intro s
    unfold segmentPart
    split
    · simpa using ‹_›
    · split <;> simpa using ‹_›
  rw [List.getLast?_map, Option.map_eq_some_iff]
  simp [hdeep]

theorem up_not_mem_parts {p : String} (h : ∀ s ∈ segments p.toList, IsName s) :
    .name ".." ∉ (ofPattern p).parts := by
  intro hmem
  obtain ⟨s, hs, hname⟩ := List.mem_map.mp hmem
  obtain ⟨-, hup⟩ := segmentPart_eq_name_iff.mp hname
  refine (h s hs).ne_up ?_
  rw [← String.toList_ofList (l := s), hup]
  rfl

theorem finds_ofPattern_iff {p : String} {t : Tree} (ht : t.hasDistinctNames = true)
    {names : List String} :
    (ofPattern p).Finds t names ↔
      (∃ text, (names, text) ∈ t.files []) ∧ (segments p.toList).getLast? ≠ some doubleStar ∧
        Derives true (segments p.toList) (names.map String.toList) := by
  have hfile : ∀ text, (names, text) ∈ t.files [] ↔ t.below? names = some (.file text) := by
    intro text
    rw [Tree.mem_files_iff ht]
    simp
  simp only [hfile]
  constructor
  · rintro ⟨htakes, hisFile, -, hlast⟩
    exact ⟨hisFile, fun h => hlast (getLast?_map_segmentPart.mpr h), takes_iff_derives.mp htakes⟩
  · rintro ⟨hisFile, hlast, hderives⟩
    exact ⟨takes_iff_derives.mpr hderives, hisFile, rfl,
      fun h => hlast (getLast?_map_segmentPart.mp h)⟩

end Search

/-! ## Files that are kept -/

namespace Source

/-- Whether a pattern of files to leave out matches the path with these names. -/
def IsLeftOut (exclude : List String) (names : List String) : Prop :=
  ∃ p ∈ exclude, trimmed p ≠ "" ∧
    (compile true (trimmed p).toList).test (relativeText names).toList = true

theorem mem_select_iff {exclude : List String} {found : List (List String)} {names : List String} :
    names ∈ select exclude found ↔ names ∈ found ∧ ¬IsLeftOut exclude names := by
  have hany : ∀ names : List String,
      (((exclude.map trimmed).filter (· ≠ "")).map fun p => compile true p.toList).any
        (·.test (relativeText names).toList) = true ↔ IsLeftOut exclude names := by
    intro names
    simp [IsLeftOut]
  unfold select
  dsimp only
  rw [mem_eraseReps, List.mem_mergeSort, List.mem_filter, Bool.not_eq_true', ← Bool.not_eq_true, hany]

/-- Whether names come before others: the first that differ do, by the numbers of their characters. -/
def ComeBefore (a b : List String) : Prop := a.map codePoints < b.map codePoints

/-- The files that are kept are strictly in order, name by name. -/
theorem pairwise_select (exclude : List String) (found : List (List String)) :
    (select exclude found).Pairwise ComeBefore := by
  have hsorted : (select exclude found).Pairwise fun a b => Path.namesPrecede a b = true :=
    (pairwise_mergeSort_names _).sublist (eraseReps_sublist _)
  refine (hsorted.and (nodup_select exclude found)).imp fun {a b} ⟨hle, hne⟩ => ?_
  -- of two files that differ, the one that does not come later comes before
  by_contra hlt
  exact hne (Path.eq_of_namesPrecede hle (decide_eq_true (List.not_lt.mp hlt)))

theorem discover_singleton {fs : FileSystem} {root : Path} {p : String} {search : Search}
    (htrim : trimmed p = p) (hne : p ≠ "") (hparse : Search.parse p = .ok search)
    (exclude : List String) :
    discover fs root [p] exclude = ((search.files fs root).map (select exclude), []) := by
  have hmatches : matchesOf fs root p = (search.files fs root, []) := by
    rw [matchesOf, htrim, if_neg hne, hparse]
  rw [discover, matchesOfAll, hmatches]
  cases search.files fs root with
  | error e => rfl
  | ok found => simp [matchesOfAll, Except.map]

/-- A pattern that a search can use, all of whose segments are names in which `**` stands alone. -/
structure IsUsable (p : String) : Prop where
  trimmed_eq : trimmed p = p
  names : ∀ s ∈ segments p.toList, IsName s
  stars : ∀ s ∈ segments p.toList, doubleStar <:+: s → s = doubleStar

section Tree

variable {fs : FileSystem} {root : Path} {t : Tree}

/-- Whether the search of a pattern fails: the path that it starts from, a name that it looks up or a
path that it asks about is too long. -/
def IsTooLong (fs : FileSystem) (root : Path) (t : Tree) (p : String) : Prop :=
  fs.fault? root = some .tooLong ∨ Search.AsksLongName t (segments p.toList) ∨
    ∃ names, Search.Asks false ((segments p.toList).map Search.segmentPart) t names ∧
      (root.append ⟨0, names⟩).isLong = true

theorem fails_ofPattern_iff {p : String} :
    (Search.ofPattern p).Fails fs root t ↔ IsTooLong fs root t p :=
  or_congr_right (or_congr_left Search.looksUpLongName_iff)

theorem discover_spec (hroot : fs.find? root = some t) (hdir : t.isDir = true)
    (ht : t.hasDistinctNames = true) {p : String} (hp : IsUsable p) (exclude : List String) :
    (IsTooLong fs root t p → discover fs root [p] exclude = (.error .tooLong, [])) ∧
    (¬IsTooLong fs root t p → ∃ found, discover fs root [p] exclude = (.ok found, []) ∧
      found.Pairwise ComeBefore ∧ ∀ names, names ∈ found ↔
        (∃ text, (names, text) ∈ t.files []) ∧
        ((segments p.toList).getLast? ≠ some doubleStar ∧
          Derives true (segments p.toList) (names.map String.toList)) ∧
        ¬IsLeftOut exclude names) := by
  have hne : p ≠ "" := by
    rintro rfl
    exact (hp.names [] (by decide)).ne_nil rfl
  have hparse := Search.parse_eq (fun s hs => ⟨(hp.names s hs).ne_nil, (hp.names s hs).ne_here⟩)
    hp.stars
  obtain ⟨hfails, hfinds⟩ := Search.files_spec (Search.up_not_mem_parts hp.names) hroot ht hdir
  rw [fails_ofPattern_iff] at hfails hfinds
  rw [discover_singleton hp.trimmed_eq hne hparse]
  refine ⟨fun hlong => by rw [hfails hlong]; rfl, fun hlong => ?_⟩
  obtain ⟨found, hfound, hmem⟩ := hfinds hlong
  refine ⟨select exclude found, by rw [hfound]; rfl, pairwise_select exclude found, fun names => ?_⟩
  rw [mem_select_iff, hmem, Search.finds_ofPattern_iff ht, and_assoc]

/-- A search that gives a result has not failed. -/
theorem not_isTooLong (hroot : fs.find? root = some t) (hdir : t.isDir = true)
    (ht : t.hasDistinctNames = true) {p : String} (hp : IsUsable p)
    (hok : ((Search.ofPattern p).files fs root).isOk = true) : ¬IsTooLong fs root t p := by
  intro hlong
  have hspec := Search.files_spec (Search.up_not_mem_parts hp.names) hroot ht hdir
  rw [hspec.1 (fails_ofPattern_iff.mpr hlong)] at hok
  cases hok

/-! ## Patterns with wildcards -/

theorem isName_of_below? {names : List String} {t t' : Tree} (ht : t.WellNamed)
    (h : t.below? names = some t') : ∀ n ∈ names, IsName n.toList := by
  induction names generalizing t with
  | nil => simp
  | cons name names ih =>
    obtain ⟨c, hc, hbelow⟩ := Option.bind_eq_some_iff.mp h
    obtain ⟨hname, hwell, -⟩ := ht.of_child? hc
    exact List.forall_mem_cons.mpr ⟨hname, ih hwell hbelow⟩

theorem ne_nil_of_mem_files (hdir : t.isDir = true) (ht : t.hasDistinctNames = true)
    {names : List String} {text : Option String} (h : (names, text) ∈ t.files []) : names ≠ [] := by
  rintro rfl
  obtain ⟨names, hnil, hbelow⟩ := (Tree.mem_files_iff ht).mp h
  obtain rfl : [] = names := hnil
  rw [Option.some.inj hbelow] at hdir
  cases hdir

theorem fileNames_of_mem_files (hdir : t.isDir = true) (hnamed : t.WellNamed)
    (ht : t.hasDistinctNames = true) {names : List String} {text : Option String}
    (h : (names, text) ∈ t.files []) : IsFileNames names ∧ ∀ n ∈ names, IsName n.toList := by
  have hne := ne_nil_of_mem_files hdir ht h
  obtain ⟨_, rfl, hbelow⟩ := (Tree.mem_files_iff ht).mp h
  have hname := isName_of_below? hnamed hbelow
  refine ⟨⟨fun n hn => .inr (hname n hn), _, _, (List.dropLast_append_getLast hne).symm, ?_⟩, hname⟩
  exact hname _ (List.getLast_mem hne)

theorem backslash_not_mem_relativeText {names : List String} (h : IsFileNames names)
    (hback : ∀ n ∈ names, '\\' ∉ n.toList) : '\\' ∉ (relativeText names).toList := by
  intro hmem
  rw [← ofSegments_segments (relativeText names).toList, Analysis.segments_relativeText h] at hmem
  rcases mem_ofSegments hmem with hslash | ⟨s, hs, hmem⟩
  · exact absurd hslash (by decide)
  · obtain ⟨n, hn, rfl⟩ := List.mem_map.mp hs
    exact hback n hn hmem

theorem isName_segments_relativeText {names : List String} (h : IsFileNames names)
    (hname : ∀ n ∈ names, IsName n.toList) :
    ∀ s ∈ segments (relativeText names).toList, IsName s := by
  rw [Analysis.segments_relativeText h]
  exact List.forall_mem_map.mpr hname

/-- A pattern with wildcards, without backslashes and not ending with `**`, that a search can use. -/
structure IsFilePattern (p : String) : Prop extends IsUsable p where
  wild : hasWildcard p.toList = true
  backslash : '\\' ∉ p.toList
  last_ne : (segments p.toList).getLast? ≠ some doubleStar

theorem test_relativeText_iff {p : String} (hp : IsFilePattern p) {names : List String}
    (h : IsFileNames names) (hname : ∀ n ∈ names, IsName n.toList)
    (hback : ∀ n ∈ names, '\\' ∉ n.toList) :
    (compile true p.toList).test (relativeText names).toList = true ↔
      Derives true (segments p.toList) (names.map String.toList) := by
  rw [test_compile_iff hp.wild, trimmed_of_isName hp.backslash hp.names,
    trimmed_of_isName (backslash_not_mem_relativeText h hback)
      (isName_segments_relativeText h hname), Analysis.segments_relativeText h]

/-- **A search finds the files whose paths match its pattern,** each once and strictly in order, in a
tree whose file names hold no backslashes. It fails when the path that it starts from, a name that it
looks up or a path that it asks about is too long. -/
theorem discover_matches (hroot : fs.find? root = some t) (hdir : t.isDir = true)
    (hnamed : t.WellNamed) (ht : t.hasDistinctNames = true)
    (hback : ∀ f ∈ t.files [], ∀ n ∈ f.1, '\\' ∉ n.toList) {p : String} (hp : IsFilePattern p) :
    (IsTooLong fs root t p → discover fs root [p] [] = (.error .tooLong, [])) ∧
    (¬IsTooLong fs root t p → ∃ found, discover fs root [p] [] = (.ok found, []) ∧
      found.Pairwise ComeBefore ∧ ∀ names, names ∈ found ↔
        (∃ text, (names, text) ∈ t.files []) ∧
          (compile true p.toList).test (relativeText names).toList = true) := by
  obtain ⟨hfails, hfinds⟩ := discover_spec hroot hdir ht hp.toIsUsable []
  refine ⟨hfails, fun hlong => ?_⟩
  obtain ⟨found, hfound, hsorted, hmem⟩ := hfinds hlong
  refine ⟨found, hfound, hsorted, fun names => ?_⟩
  rw [hmem]
  refine and_congr_right fun ⟨text, hfile⟩ => ?_
  obtain ⟨hnames, hname⟩ := fileNames_of_mem_files hdir hnamed ht hfile
  rw [test_relativeText_iff hp hnames hname (hback _ hfile)]
  simp [hp.last_ne, IsLeftOut]

/-- Two modules, one of them in a directory. -/
def twoModules : FileSystem where
  root := .dir [("src", .dir [("a.ts", .file (some ""))]), ("b.ts", .file (some ""))]
  working := []

/-- The name of a directory that is too long to be looked up. -/
def longName : List Char := List.replicate 256 'a'

theorem isLongName_longName : Path.isLongName (String.ofList longName) = true := by
  have htext : (Path.mk 0 [String.ofList longName]).text = String.ofList longName := by
    simp [Path.text]
  have hsize : Path.maxNameSize < Path.byteSize (String.ofList longName) := by
    rw [Path.byteSize, String.toList_ofList]
    decide +kernel
  have hfault : Path.textFault? ⟨0, [String.ofList longName]⟩ = none := by
    rw [Path.textFault?, htext, String.toList_ofList]
    decide +kernel
  rw [Path.isLongName, hfault, decide_eq_true hsize]
  rfl

theorem isFilePattern_longName : IsFilePattern (String.ofList (longName ++ "/*.ts".toList)) where
  trimmed_eq := by
    rw [trimmed, String.toList_ofList]
    exact congrArg String.ofList (by decide +kernel)
  names := by
    rw [String.toList_ofList]
    decide +kernel
  stars := by
    rw [String.toList_ofList]
    decide +kernel
  wild := by
    rw [String.toList_ofList]
    decide +kernel
  backslash := by
    rw [String.toList_ofList]
    decide +kernel
  last_ne := by
    rw [String.toList_ofList]
    decide +kernel

theorem discover_matches_longName :
    discover twoModules ⟨0, []⟩ [String.ofList (longName ++ "/*.ts".toList)] [] =
        (.error .tooLong, []) ∧
      ∃ found, discover twoModules ⟨0, []⟩ ["**/?.ts"] [] = (.ok found, []) ∧
        ["src", "a.ts"] ∈ found := by
  have hsearch := fun p (hp : IsFilePattern p) =>
    @discover_matches twoModules ⟨0, []⟩ twoModules.root rfl rfl (by decide +kernel)
      (by decide +kernel) (by decide +kernel) p hp
  constructor
  · refine (hsearch _ isFilePattern_longName).1 (.inr (.inl ⟨[], longName, ["*.ts".toList], ?_,
      by decide +kernel, isLongName_longName, [], twoModules.root, .nil, rfl, rfl⟩))
    rw [String.toList_ofList]
    decide +kernel
  · have hp : IsFilePattern "**/?.ts" := ⟨⟨by decide +kernel, by decide +kernel, by decide +kernel⟩,
      by decide +kernel, by decide +kernel, by decide +kernel⟩
    obtain ⟨found, hfound, -, hmem⟩ := (hsearch _ hp).2
      (not_isTooLong rfl rfl (by decide +kernel) hp.toIsUsable (by decide +kernel))
    exact ⟨found, hfound, (hmem _).mpr ⟨⟨some "", by decide +kernel⟩, by decide +kernel⟩⟩

/-! ## Everything below a directory -/

/-- A directory that is written without wildcards and backslashes, and with no blank in front. -/
structure IsDirectoryPattern (d : String) : Prop where
  names : ∀ s ∈ segments d.toList, IsName s
  plain : hasWildcard d.toList = false
  backslash : '\\' ∉ d.toList
  head_not_blank : ∀ c ∈ d.toList.head?, isBlank c = false

/-- Whether the file with these names lies at or below a directory, as patterns see its path. -/
def LiesUnder (d : String) (names : List String) : Prop :=
  segments d.toList <+: segments (Glob.relative (relativeText names).toList)

theorem liesUnder_iff {d : String} {names : List String} (h : IsFileNames names)
    (hname : ∀ n ∈ names, IsName n.toList) (hback : ∀ n ∈ names, '\\' ∉ n.toList) :
    LiesUnder d names ↔ segments d.toList <+: names.map String.toList := by
  rw [LiesUnder, relative_of_isName (backslash_not_mem_relativeText h hback)
    (isName_segments_relativeText h hname), Analysis.segments_relativeText h]

theorem toList_append_stars (d : String) : (d ++ "/**").toList = subtreeGlob d.toList := by
  simp [subtreeGlob, doubleStar]

theorem trim_eq_self {s : List Char} (hhead : ∀ c ∈ s.head?, isBlank c = false)
    (hlast : ∀ c ∈ s.getLast?, isBlank c = false) : trim s = s := by
  have hkeep : ∀ {s : List Char}, (∀ c ∈ s.head?, isBlank c = false) → s.dropWhile isBlank = s := by
    intro s h
    cases s with
    | nil => rfl
    | cons c s => exact List.dropWhile_cons_of_neg (by simp [h c rfl])
  rw [trim, hkeep hhead, hkeep (by simpa using hlast), List.reverse_reverse]

theorem IsDirectoryPattern.isUsable {d : String} (hd : IsDirectoryPattern d) :
    IsUsable (d ++ "/**") := by
  have hne : d.toList ≠ [] := by
    intro hnil
    exact (hd.names [] (by rw [hnil]; decide)).ne_nil rfl
  have hsegments : ∀ {P : List Char → Prop}, (∀ s ∈ segments d.toList, P s) → P doubleStar →
      ∀ s ∈ segments (d ++ "/**").toList, P s := by
    intro P hall hstars s hs
    rw [toList_append_stars, segments_subtreeGlob, List.mem_append, List.mem_singleton] at hs
    rcases hs with hs | rfl
    · exact hall s hs
    · exact hstars
  refine ⟨?_, hsegments hd.names (by decide), hsegments (fun s hs hstars => ?_) fun _ => rfl⟩
  · rw [trimmed, toList_append_stars, trim_eq_self, ← toList_append_stars, String.ofList_toList]
    · obtain ⟨c, rest, hcons⟩ := List.exists_cons_of_ne_nil hne
      have hhead := hd.head_not_blank
      rw [hcons] at hhead ⊢
      exact hhead
    · intro c hc
      rw [subtreeGlob, List.getLast?_append] at hc
      obtain rfl : '*' = c := Option.some.inj hc
      decide
  · -- a star is a wildcard, and the directory has none
    have hplain := hasWildcard_of_mem_segments hd.plain hs
    rw [hasWildcard, List.any_eq_false] at hplain
    exact absurd rfl (hplain '*' (hstars.subset List.mem_cons_self))

theorem isLeftOut_subtree_iff {d : String} (hd : IsDirectoryPattern d) {names : List String} :
    IsLeftOut [d ++ "/**"] names ↔ LiesUnder d names := by
  have hne : d ++ "/**" ≠ "" := fun h => (hd.isUsable.names [] (by rw [h]; decide)).ne_nil rfl
  have hhere : Glob.relative d.toList ≠ here := by
    rw [relative_of_isName hd.backslash hd.names]
    intro hhere
    exact (hd.names here (by rw [hhere]; decide)).ne_here rfl
  have hlast : d.toList.getLast? ≠ some '/' := fun hlast =>
    (hd.names [] (nil_mem_segments_of_getLast? hlast)).ne_nil rfl
  have hplain : ∀ s ∈ segments d.toList, hasWildcard s = false := fun s hs =>
    hasWildcard_of_mem_segments hd.plain hs
  calc IsLeftOut [d ++ "/**"] names
      ↔ (compile true (d ++ "/**").toList).test (relativeText names).toList = true := by
        simp [IsLeftOut, hd.isUsable.trimmed_eq, hne]
    _ ↔ Derives true (segments d.toList ++ [doubleStar])
          (segments (Glob.trimmed (relativeText names).toList)) := by
        rw [toList_append_stars, test_compile_iff (hasWildcard_subtreeGlob _),
          segments_trimmed_subtreeGlob hhere, relative_of_isName hd.backslash hd.names]
    _ ↔ LiesUnder d names := by
        rw [derives_doubleStar_iff hplain, Glob.trimmed, prefix_segments_dropRight_iff hlast,
          LiesUnder]

theorem isUsable_anyFile : IsUsable "**/*" := by
  refine ⟨by decide +kernel, by decide +kernel, by decide +kernel⟩

/-- Whether the path of a place in a tree is too long. -/
def HasLongPath (root : Path) (t : Tree) : Prop :=
  ∃ names c, t.below? names = some c ∧ (root.append ⟨0, names⟩).isLong = true

/-- A search that looks up no name asks only about what is there. -/
theorem exists_below?_of_asks {last : Bool} {parts : List SearchPart} {names : List String}
    (hparts : ∀ part ∈ parts, ∀ n, part ≠ .name n) (h : Search.Asks last parts t names) :
    ∃ c, t.below? names = some c := by
  induction h with
  | found t => exact ⟨t, rfl⟩
  | first rest h =>
    cases h with
    | name n => exact absurd rfl (hparts _ List.mem_cons_self n)
    | wild items => exact ⟨_, rfl⟩
    | deep hd hdir => exact ⟨_, hd⟩
  | next hfront hc hdir h ih =>
    obtain ⟨c, hbelow⟩ := ih fun part hpart => hparts part (List.mem_cons_of_mem _ hpart)
    exact ⟨c, Tree.below?_append_eq_some_iff.mpr ⟨_, hc, hbelow⟩⟩

/-- The search of `**/*` asks about all that is there. -/
theorem asks_anyFile (hdir : t.isDir = true) {names : List String} {c : Tree}
    (h : t.below? names = some c) : Search.Asks false [.deep, .wild ['*']] t names := by
  by_cases hnil : names = []
  · subst hnil
    exact .first _ (.deep rfl hdir)
  · -- the last name is an entry of the directory that the others lead to
    rw [← List.dropLast_append_getLast hnil] at h ⊢
    obtain ⟨d, hd, hc⟩ := Tree.below?_append_eq_some_iff.mp h
    have hddir : d.isDir = true := Tree.isDir_of_below? hc fun hnil => absurd hnil (by simp)
    refine .next (.deep _) hd (.inl hddir) ?_
    rw [← List.append_nil [names.getLast hnil]]
    exact .next (.wild (matchesName_star _)) hc (.inr ⟨by simp, rfl, rfl⟩) (.found c)

theorem isTooLong_anyFile_iff (hdir : t.isDir = true) :
    IsTooLong fs root t "**/*" ↔ fs.fault? root = some .tooLong ∨ HasLongPath root t := by
  have hsegments : segments "**/*".toList = [doubleStar, ['*']] := by decide +kernel
  have hparts : (segments "**/*".toList).map Search.segmentPart = [.deep, .wild ['*']] := by
    rw [hsegments]
    decide
  have hplain : ¬Search.AsksLongName t (segments "**/*".toList) := by
    rintro ⟨front, s, back, hsplit, hs, -⟩
    have hwild : ∀ s ∈ segments "**/*".toList, hasWildcard s = true := by decide +kernel
    rw [hwild s (hsplit ▸ List.mem_append_right _ List.mem_cons_self)] at hs
    cases hs
  unfold IsTooLong
  rw [hparts, or_iff_right hplain]
  refine or_congr_right ⟨?_, ?_⟩
  · rintro ⟨names, hasks, hlong⟩
    obtain ⟨c, hc⟩ := exists_below?_of_asks (by simp) hasks
    exact ⟨names, c, hc, hlong⟩
  · rintro ⟨names, c, hc, hlong⟩
    exact ⟨names, asks_anyFile hdir hc, hlong⟩

/-- The search of `**/*` goes through all files, unless a path is too long. -/
theorem discover_anyFile (hroot : fs.find? root = some t) (hdir : t.isDir = true)
    (ht : t.hasDistinctNames = true) (exclude : List String) :
    (fs.fault? root = some .tooLong ∨ HasLongPath root t →
      discover fs root ["**/*"] exclude = (.error .tooLong, [])) ∧
    (¬(fs.fault? root = some .tooLong ∨ HasLongPath root t) → ∃ found,
      discover fs root ["**/*"] exclude = (.ok found, []) ∧ ∀ names, names ∈ found ↔
        (∃ text, (names, text) ∈ t.files []) ∧ ¬IsLeftOut exclude names) := by
  have hsegments : segments "**/*".toList = [doubleStar, ['*']] := by decide +kernel
  rw [← isTooLong_anyFile_iff hdir]
  obtain ⟨hfails, hfinds⟩ := discover_spec hroot hdir ht isUsable_anyFile exclude
  refine ⟨hfails, fun hlong => ?_⟩
  obtain ⟨found, hfound, -, hmem⟩ := hfinds hlong
  refine ⟨found, hfound, fun names => ?_⟩
  rw [hmem, hsegments]
  refine and_congr_right fun ⟨text, hfile⟩ => and_iff_right ⟨by decide, derives_anyFile ?_⟩
  simpa using ne_nil_of_mem_files hdir ht hfile

/-- **As a pattern to look for, everything below a directory finds nothing; as a pattern to leave
out, it takes away what lies at or below the directory.** So the two meanings agree exactly if there
is no such file. The search for everything below the directory fails when the path that it starts from,
a name that it looks up or a path that it asks about is too long, and the searches for all files fail
when the path that they start from or that of a place in the tree is. -/
theorem discover_subtree (hroot : fs.find? root = some t) (hdir : t.isDir = true)
    (ht : t.hasDistinctNames = true) {d : String} (hd : IsDirectoryPattern d) :
    (IsTooLong fs root t (d ++ "/**") →
      discover fs root [d ++ "/**"] [] = (.error .tooLong, [])) ∧
    (fs.fault? root = some .tooLong ∨ HasLongPath root t → ∀ exclude,
      discover fs root ["**/*"] exclude = (.error .tooLong, [])) ∧
    (¬(fs.fault? root = some .tooLong ∨ HasLongPath root t) → ∃ all kept,
      discover fs root ["**/*"] [] = (.ok all, []) ∧
      discover fs root ["**/*"] [d ++ "/**"] = (.ok kept, []) ∧
      (∀ names, names ∈ all ↔ ∃ text, (names, text) ∈ t.files []) ∧
      (∀ names, names ∈ all ∧ names ∉ kept ↔ names ∈ all ∧ LiesUnder d names) ∧
      (¬IsTooLong fs root t (d ++ "/**") → ∃ selected,
        discover fs root [d ++ "/**"] [] = (.ok selected, []) ∧ selected = [] ∧
        ((∀ names, names ∈ selected ↔ names ∈ all ∧ names ∉ kept) ↔
          ∀ names ∈ all, ¬LiesUnder d names))) := by
  obtain ⟨hfails, hfinds⟩ := discover_spec hroot hdir ht hd.isUsable []
  refine ⟨hfails, fun hfault exclude => (discover_anyFile hroot hdir ht exclude).1 hfault,
    fun hfault => ?_⟩
  obtain ⟨all, hall, hmem⟩ := (discover_anyFile hroot hdir ht []).2 hfault
  obtain ⟨kept, hkept, hmem'⟩ := (discover_anyFile hroot hdir ht [d ++ "/**"]).2 hfault
  have hmemAll : ∀ names, names ∈ all ↔ ∃ text, (names, text) ∈ t.files [] := by
    intro names
    rw [hmem]
    simp [IsLeftOut]
  have hremoved : ∀ names, names ∈ all ∧ names ∉ kept ↔ names ∈ all ∧ LiesUnder d names := by
    intro names
    rw [hmem', ← hmemAll, isLeftOut_subtree_iff hd]
    exact and_congr_right fun hnames => by rw [and_iff_right hnames, not_not]
  refine ⟨all, kept, hall, hkept, hmemAll, hremoved, fun hlong => ?_⟩
  obtain ⟨selected, hselected, -, hmemSelected⟩ := hfinds hlong
  have hnil : selected = [] := by
    refine List.eq_nil_iff_forall_not_mem.mpr fun names hnames => ?_
    obtain ⟨-, ⟨hlast, -⟩, -⟩ := (hmemSelected names).mp hnames
    rw [toList_append_stars, segments_subtreeGlob, List.getLast?_concat] at hlast
    exact hlast rfl
  refine ⟨selected, hselected, hnil, ?_⟩
  simp only [hremoved, hnil, List.not_mem_nil, false_iff, not_and]

theorem isDirectoryPattern_src : IsDirectoryPattern "src" where
  names := by decide +kernel
  plain := by decide +kernel
  backslash := by decide +kernel
  head_not_blank := by
    intro c hc
    obtain rfl : 's' = c := Option.some.inj hc
    decide

theorem discover_subtree_twoModules :
    ∃ all kept, discover twoModules ⟨0, []⟩ ["**/*"] [] = (.ok all, []) ∧
      discover twoModules ⟨0, []⟩ ["**/*"] ["src" ++ "/**"] = (.ok kept, []) ∧
      discover twoModules ⟨0, []⟩ ["src" ++ "/**"] [] = (.ok [], []) ∧
      ["src", "a.ts"] ∈ all ∧ ["src", "a.ts"] ∉ kept := by
  have hdistinct : twoModules.root.hasDistinctNames = true := by decide +kernel
  have hlong : ¬IsTooLong twoModules ⟨0, []⟩ twoModules.root ("src" ++ "/**") :=
    not_isTooLong rfl rfl hdistinct isDirectoryPattern_src.isUsable (by decide +kernel)
  have hfits : ¬IsTooLong twoModules ⟨0, []⟩ twoModules.root "**/*" :=
    not_isTooLong rfl rfl hdistinct isUsable_anyFile (by decide +kernel)
  rw [isTooLong_anyFile_iff rfl] at hfits
  obtain ⟨all, kept, hfound, hkept, hall, hremoved, hselects⟩ :=
    (@discover_subtree twoModules ⟨0, []⟩ twoModules.root rfl rfl hdistinct "src"
      isDirectoryPattern_src).2.2 hfits
  obtain ⟨_, hselected, rfl, -⟩ := hselects hlong
  have hmem : (["src", "a.ts"], some "") ∈ twoModules.root.files [] := by decide +kernel
  have hfile : ["src", "a.ts"] ∈ all := (hall _).mpr ⟨some "", hmem⟩
  have hunder : LiesUnder "src" ["src", "a.ts"] := by
    obtain ⟨hnames, hname⟩ := fileNames_of_mem_files rfl (by decide +kernel) (by decide +kernel) hmem
    rw [liesUnder_iff hnames hname (by decide +kernel)]
    decide +kernel
  exact ⟨all, kept, hfound, hkept, hselected, hfile, ((hremoved _).mpr ⟨hfile, hunder⟩).2⟩

end Tree

end Source

end Layering
