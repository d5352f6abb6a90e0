import Layering.Files.Search
import Mathlib.Data.List.Basic
import Mathlib.Data.List.Nodup
import Mathlib.Tactic.Common

/-!
# What a search finds

A search walks a tree from a directory, and the parts of its pattern say which names it may take: a
name itself, `**` any number of names, and a part with wildcards one name that it matches
(`SearchPart.Takes`, `Search.Takes`). In a tree whose directories have no two entries of one name, a
search finds exactly the places whose names its parts take (`listed_follow`), where it has to end at
a directory if `**` comes last or if a slash does. The files of a tree are the places with a file
(`Tree.mem_files_iff`).

A search fails when it looks up a name that is too long, which it does in each directory that the parts
before the name lead to (`meetsLongName_iff`), and when it asks the file system about a path that is too
long. The paths that it asks about are those of the names that it looks up, of the directories that it
lists and of the places that it finds (`SearchPart.Asks`, `Search.Asks`, `meetsLongPath_iff`).
-/

namespace Layering

/-! ## Trees -/

namespace Tree

/-- What holds of files, and of directories when it holds of all their entries, holds of all trees. -/
theorem induction {P : Tree → Prop} (file : ∀ text, P (.file text))
    (dir : ∀ es, (∀ e ∈ es, P e.2) → P (.dir es)) (t : Tree) : P t :=
  @Tree.rec P (fun es => ∀ e ∈ es, P e.2) (fun e => P e.2) file dir (by simp)
    (fun _ _ he hes => List.forall_mem_cons.mpr ⟨he, hes⟩) (fun _ _ ht => ht) t

mutual

/-- Whether no two entries of a directory in a tree have the same name. -/
def hasDistinctNames : Tree → Bool
  | file _ => true
  | dir es => decide (es.map (·.1)).Nodup && entriesHaveDistinctNames es

/-- Whether this holds in the trees of all entries. -/
def entriesHaveDistinctNames : List (String × Tree) → Bool
  | [] => true
  | (_, t) :: es => t.hasDistinctNames && entriesHaveDistinctNames es

end

theorem entriesHaveDistinctNames_iff {es : List (String × Tree)} :
    entriesHaveDistinctNames es = true ↔ ∀ e ∈ es, e.2.hasDistinctNames = true := by
  induction es with
  | nil => simp [entriesHaveDistinctNames]
  | cons e es ih => rw [entriesHaveDistinctNames, Bool.and_eq_true, ih, List.forall_mem_cons]

theorem hasDistinctNames_dir_iff {es : List (String × Tree)} :
    (dir es).hasDistinctNames = true ↔
      (es.map (·.1)).Nodup ∧ ∀ e ∈ es, e.2.hasDistinctNames = true := by
  rw [hasDistinctNames, Bool.and_eq_true, decide_eq_true_eq, entriesHaveDistinctNames_iff]

/-- The tree that names lead down to. -/
def below? : Tree → List String → Option Tree
  | t, [] => some t
  | t, name :: names => (t.child? name).bind fun c => c.below? names

@[simp] theorem below?_nil (t : Tree) : t.below? [] = some t := rfl

theorem below?_singleton (t : Tree) (name : String) : t.below? [name] = t.child? name := by
  rw [below?]
  cases t.child? name <;> rfl

theorem below?_append (t : Tree) (front names : List String) :
    t.below? (front ++ names) = (t.below? front).bind fun c => c.below? names := by
  induction front generalizing t with
  | nil => rfl
  | cons name front ih =>
    rw [List.cons_append, below?, below?, Option.bind_assoc]
    exact congrArg _ (funext fun c => ih c)

theorem below?_append_eq_some_iff {t t' : Tree} {front names : List String} :
    t.below? (front ++ names) = some t' ↔
      ∃ c, t.below? front = some c ∧ c.below? names = some t' := by
  rw [below?_append, Option.bind_eq_some_iff]

theorem isDir_of_child? {t c : Tree} {name : String} (h : t.child? name = some c) :
    t.isDir = true := by
  cases t with
  | file text => cases h
  | dir es => rfl

/-- Where names lead on from a tree, or to a directory, there the tree is a directory itself. -/
theorem isDir_of_below? {t t' : Tree} {names : List String} (h : t.below? names = some t')
    (hend : names = [] → t'.isDir = true) : t.isDir = true := by
  cases names with
  | nil => exact Option.some.inj h ▸ hend rfl
  | cons name names =>
    obtain ⟨c, hc, -⟩ := Option.bind_eq_some_iff.mp h
    exact isDir_of_child? hc

/-- The entries of a directory are the trees that its names lead to. -/
theorem child?_dir_eq_some_iff {es : List (String × Tree)} (h : (es.map (·.1)).Nodup)
    {name : String} {c : Tree} : (dir es).child? name = some c ↔ (name, c) ∈ es := by
  rw [child?, List.lookup_eq_some_iff]
  constructor
  · rintro ⟨before, after, rfl, -⟩
    simp
  · intro hmem
    obtain ⟨before, after, rfl⟩ := List.append_of_mem hmem
    refine ⟨before, after, rfl, fun e he => bne_iff_ne.mpr ?_⟩
    rw [List.map_append, List.map_cons] at h
    rintro rfl
    exact (List.nodup_append.mp h).2.2 _ (List.mem_map_of_mem he) _ List.mem_cons_self rfl

theorem hasDistinctNames_of_child? {t c : Tree} {name : String} (ht : t.hasDistinctNames = true)
    (hc : t.child? name = some c) : c.hasDistinctNames = true := by
  cases t with
  | file text => cases hc
  | dir es =>
    obtain ⟨hnodup, htrees⟩ := hasDistinctNames_dir_iff.mp ht
    exact htrees _ ((child?_dir_eq_some_iff hnodup).mp hc)

theorem hasDistinctNames_of_below? {t t' : Tree} {names : List String}
    (ht : t.hasDistinctNames = true) (h : t.below? names = some t') :
    t'.hasDistinctNames = true := by
  induction names generalizing t with
  | nil => exact Option.some.inj h ▸ ht
  | cons name names ih =>
    obtain ⟨c, hc, hbelow⟩ := Option.bind_eq_some_iff.mp h
    exact ih (hasDistinctNames_of_child? ht hc) hbelow

theorem mem_filesIn {above : List String} {es : List (String × Tree)}
    {f : List String × Option String} :
    f ∈ filesIn above es ↔ ∃ e ∈ es, f ∈ e.2.files (e.1 :: above) := by
  induction es with
  | nil => simp [filesIn]
  | cons e es ih => rw [filesIn, List.mem_append, ih, List.exists_mem_cons_iff]

/-- The files of a tree are the places below it where there is a file. -/
theorem mem_files_iff {t : Tree} (ht : t.hasDistinctNames = true) {above : List String}
    {f : List String × Option String} :
    f ∈ t.files above ↔
      ∃ names, f.1 = above.reverse ++ names ∧ t.below? names = some (.file f.2) := by
  induction t using Tree.induction generalizing above with
  | file text =>
    rw [files, List.mem_singleton]
    constructor
    · rintro rfl
      exact ⟨[], by simp, rfl⟩
    · rintro ⟨_ | ⟨name, names⟩, hnames, hfile⟩
      · obtain ⟨rfl⟩ := Option.some.inj hfile
        rw [← List.append_nil above.reverse, ← hnames]
      · cases hfile
  | dir es ih =>
    obtain ⟨hnodup, htrees⟩ := hasDistinctNames_dir_iff.mp ht
    rw [files, mem_filesIn]
    constructor
    · rintro ⟨e, he, hf⟩
      obtain ⟨names, hnames, hfile⟩ := (ih e he (htrees e he)).mp hf
      refine ⟨e.1 :: names, by simpa using hnames, ?_⟩
      rw [below?, (child?_dir_eq_some_iff hnodup).mpr he]
      exact hfile
    · rintro ⟨_ | ⟨name, names⟩, hnames, hfile⟩
      · cases hfile
      · obtain ⟨c, hc, hfile⟩ := Option.bind_eq_some_iff.mp hfile
        have he := (child?_dir_eq_some_iff hnodup).mp hc
        exact ⟨(name, c), he, (ih _ he (htrees _ he)).mpr ⟨names, by simpa using hnames, hfile⟩⟩

end Tree

/-! ## Places -/

namespace Spot

/-- Whether a place with these names and this tree is among the places of a list. -/
def Listed (spots : List Spot) (names : List String) (t : Tree) : Prop :=
  ∃ s ∈ spots, s.names = names ∧ s.tree? = some t

theorem listed_append {spots spots' : List Spot} {names : List String} {t : Tree} :
    Listed (spots ++ spots') names t ↔ Listed spots names t ∨ Listed spots' names t := by
  simp only [Listed, List.mem_append, or_and_right, exists_or]

theorem listed_singleton {s : Spot} {names : List String} {t : Tree} :
    Listed [s] names t ↔ s.names = names ∧ s.tree? = some t := by
  simp only [Listed, List.mem_singleton, exists_eq_left]

end Spot

open Spot

namespace Tree

theorem mem_entryDirectories {names : List String} {above : List Tree} {s : Spot}
    {es : List (String × Tree)} :
    s ∈ entryDirectories names above es ↔ ∃ e ∈ es, s ∈ e.2.directories (names ++ [e.1]) above := by
  induction es with
  | nil => simp [entryDirectories]
  | cons e es ih => rw [entryDirectories, List.mem_append, ih, List.exists_mem_cons_iff]

theorem listed_entryDirectories {names above_names : List String} {above : List Tree} {t : Tree}
    {es : List (String × Tree)} :
    Listed (entryDirectories above_names above es) names t ↔
      ∃ e ∈ es, Listed (e.2.directories (above_names ++ [e.1]) above) names t := by
  simp only [Listed, mem_entryDirectories]
  constructor
  · rintro ⟨s, ⟨e, he, hs⟩, h⟩
    exact ⟨e, he, s, hs, h⟩
  · rintro ⟨e, he, s, hs, h⟩
    exact ⟨s, ⟨e, he, hs⟩, h⟩

theorem isDir_of_mem_directories {t : Tree} {names : List String} {above : List Tree} {s : Spot}
    (h : s ∈ t.directories names above) : s.isDir = true := by
  induction t using Tree.induction generalizing names above with
  | file text => cases h
  | dir es ih =>
    rw [directories, List.mem_cons, mem_entryDirectories] at h
    rcases h with rfl | ⟨e, he, h⟩
    · rfl
    · exact ih e he h

/-- The directories at and below a tree. -/
theorem listed_directories {t t' : Tree} (ht : t.hasDistinctNames = true) {start : List String}
    {above : List Tree} {names : List String} :
    Listed (t.directories start above) names t' ↔
      ∃ front, names = start ++ front ∧ t.below? front = some t' ∧ t'.isDir = true := by
  induction t using Tree.induction generalizing start above with
  | file text =>
    constructor
    · rintro ⟨s, hs, -⟩
      cases hs
    · rintro ⟨_ | ⟨name, front⟩, -, hbelow, hdir⟩
      · rw [← Option.some.inj hbelow] at hdir
        cases hdir
      · cases hbelow
  | dir es ih =>
    obtain ⟨hnodup, htrees⟩ := hasDistinctNames_dir_iff.mp ht
    rw [directories, ← List.singleton_append, listed_append, listed_singleton,
      listed_entryDirectories]
    constructor
    · rintro (⟨rfl, htree⟩ | ⟨e, he, hlisted⟩)
      · obtain rfl := Option.some.inj htree
        exact ⟨[], by simp, rfl, rfl⟩
      · obtain ⟨front, rfl, hbelow, hdir⟩ := (ih e he (htrees e he)).mp hlisted
        refine ⟨e.1 :: front, by simp, ?_, hdir⟩
        rw [below?, (child?_dir_eq_some_iff hnodup).mpr he]
        exact hbelow
    · rintro ⟨_ | ⟨name, front⟩, rfl, hbelow, hdir⟩
      · exact .inl ⟨by simp, hbelow⟩
      · obtain ⟨c, hc, hbelow⟩ := Option.bind_eq_some_iff.mp hbelow
        have he := (child?_dir_eq_some_iff hnodup).mp hc
        exact .inr ⟨(name, c), he, (ih _ he (htrees _ he)).mpr ⟨front, by simp, hbelow, hdir⟩⟩

end Tree

/-! ## One part -/

/-- The names that one part of a search pattern can take. -/
inductive SearchPart.Takes : SearchPart → List String → Prop
  | name (n : String) : Takes (.name n) [n]
  | wild {items : List Char} {n : String} (h : Glob.matchesName items n.toList = true) :
      Takes (.wild items) [n]
  | deep (names : List String) : Takes .deep names

namespace Search

/-- The names that parts of a search pattern can take, one after the other. -/
inductive Takes : List SearchPart → List String → Prop
  | nil : Takes [] []
  | cons {part : SearchPart} {parts : List SearchPart} {front names : List String}
      (h : part.Takes front) (hrest : Takes parts names) : Takes (part :: parts) (front ++ names)

theorem takes_cons_iff {part : SearchPart} {parts : List SearchPart} {names : List String} :
    Takes (part :: parts) names ↔
      ∃ front rest, names = front ++ rest ∧ part.Takes front ∧ Takes parts rest := by
  constructor
  · rintro (- | ⟨h, hrest⟩)
    exact ⟨_, _, rfl, h, hrest⟩
  · rintro ⟨front, rest, rfl, h, hrest⟩
    exact .cons h hrest

/-- Only `**` takes no name at all. -/
theorem getLast?_of_takes_nil {parts : List SearchPart} (h : Takes parts []) (hne : parts ≠ []) :
    parts.getLast? = some .deep := by
  induction parts with
  | nil => exact absurd rfl hne
  | cons part parts ih =>
    obtain ⟨front, rest, hnil, hpart, hrest⟩ := takes_cons_iff.mp h
    obtain ⟨rfl, rfl⟩ := List.append_eq_nil_iff.mp hnil.symm
    cases hpart with
    | deep =>
      cases parts with
      | nil => rfl
      | cons part' parts => exact ih hrest (List.cons_ne_nil _ _)

theorem isDir_of_tree? {s : Spot} {t : Tree} (h : s.tree? = some t) : s.isDir = t.isDir := by
  rw [Spot.isDir, h, Option.any_some]

theorem exists_tree?_of_isDir {s : Spot} (h : s.isDir = true) :
    ∃ t, s.tree? = some t ∧ t.isDir = true := by
  rw [Spot.isDir] at h
  cases ht : s.tree? with
  | none => simp [ht] at h
  | some t => exact ⟨t, rfl, by simpa [ht] using h⟩

section Step

variable {s : Spot} {t t' : Tree} {names : List String}

theorem listed_step_name (hs : s.tree? = some t) {n : String} (hn : n ≠ "..") :
    Listed (step s (.name n)) names t' ↔ names = s.names ++ [n] ∧ t.child? n = some t' := by
  obtain ⟨above, htrail⟩ := List.head?_eq_some_iff.mp hs
  have hfollow : Tree.follow s.trail [n] = (t.child? n).map (· :: t :: above) := by
    rw [htrail, Tree.follow, if_neg hn]
    cases t.child? n <;> rfl
  rw [step, Spot.child?, hfollow]
  cases t.child? n with
  | none => simp [Listed]
  | some c =>
    rw [Option.map_some, Option.map_some, Option.toList_some, listed_singleton]
    exact and_congr eq_comm Iff.rfl

theorem listed_step_wild (hs : s.tree? = some t) (ht : t.hasDistinctNames = true)
    {items : List Char} :
    Listed (step s (.wild items)) names t' ↔
      ∃ n, names = s.names ++ [n] ∧ Glob.matchesName items n.toList = true ∧
        t.child? n = some t' := by
  obtain ⟨above, htrail⟩ := List.head?_eq_some_iff.mp hs
  cases t with
  | file text => simp [step, Spot.children, htrail, Listed, Tree.child?]
  | dir es =>
    obtain ⟨hnodup, -⟩ := Tree.hasDistinctNames_dir_iff.mp ht
    have hchildren : s.children = es.map fun e => ⟨s.names ++ [e.1], e.2 :: .dir es :: above⟩ := by
      rw [Spot.children, htrail]
    rw [step, hchildren]
    simp only [Tree.child?_dir_eq_some_iff hnodup]
    constructor
    · rintro ⟨u, hu, rfl, htree⟩
      obtain ⟨hu, hmatch⟩ := List.mem_filter.mp hu
      obtain ⟨⟨n, c⟩, he, rfl⟩ := List.mem_map.mp hu
      obtain rfl := Option.some.inj htree
      exact ⟨n, rfl, by simpa using hmatch, he⟩
    · rintro ⟨n, rfl, hmatch, he⟩
      refine ⟨⟨s.names ++ [n], t' :: .dir es :: above⟩, List.mem_filter.mpr ⟨?_, ?_⟩, rfl, rfl⟩
      · exact List.mem_map.mpr ⟨(n, t'), he, rfl⟩
      · simpa using hmatch

theorem step_deep (hs : s.tree? = some t) : ∃ above, step s .deep = t.directories s.names above := by
  obtain ⟨above, htrail⟩ := List.head?_eq_some_iff.mp hs
  refine ⟨above, ?_⟩
  unfold step
  dsimp only
  rw [htrail]

/-- **One part leads to the places whose names it takes,** and `**` to directories only. -/
theorem listed_step (hs : s.tree? = some t) (ht : t.hasDistinctNames = true) {part : SearchPart}
    (hpart : part ≠ .name "..") :
    Listed (step s part) names t' ↔
      ∃ front, names = s.names ++ front ∧ part.Takes front ∧ t.below? front = some t' ∧
        (part = .deep → t'.isDir = true) := by
  cases part with
  | name n =>
    rw [listed_step_name hs fun hn => hpart (congrArg _ hn)]
    constructor
    · rintro ⟨rfl, hchild⟩
      exact ⟨[n], rfl, .name n, by rwa [Tree.below?_singleton], by simp⟩
    · rintro ⟨_, rfl, ⟨⟩, hbelow, -⟩
      exact ⟨rfl, by rwa [Tree.below?_singleton] at hbelow⟩
  | wild items =>
    rw [listed_step_wild hs ht]
    constructor
    · rintro ⟨n, rfl, hmatch, hchild⟩
      exact ⟨[n], rfl, .wild hmatch, by rwa [Tree.below?_singleton], by simp⟩
    · rintro ⟨_, rfl, hmatch | hmatch, hbelow, -⟩
      exact ⟨_, rfl, hmatch, by rwa [Tree.below?_singleton] at hbelow⟩
  | deep =>
    obtain ⟨above, hstep⟩ := step_deep hs
    rw [hstep, Tree.listed_directories ht]
    constructor
    · rintro ⟨front, rfl, hbelow, hdir⟩
      exact ⟨front, rfl, .deep front, hbelow, fun _ => hdir⟩
    · rintro ⟨front, rfl, -, hbelow, hdir⟩
      exact ⟨front, rfl, hbelow, hdir rfl⟩

/-- Every part leads to places that are there. -/
theorem exists_tree?_of_mem_step (hs : s.tree? = some t) {part : SearchPart}
    (hpart : part ≠ .name "..") {u : Spot} (hu : u ∈ step s part) : ∃ c, u.tree? = some c := by
  obtain ⟨above, htrail⟩ := List.head?_eq_some_iff.mp hs
  cases part with
  | name n =>
    rw [step, Spot.child?, htrail, Tree.follow, if_neg fun hn => hpart (congrArg _ hn)] at hu
    cases hchild : t.child? n with
    | none => simp [hchild] at hu
    | some c =>
      simp only [hchild, Tree.follow, Option.map_some, Option.toList_some, List.mem_singleton] at hu
      exact ⟨c, hu ▸ rfl⟩
  | wild items =>
    have hmem := List.mem_of_mem_filter hu
    rw [Spot.children, htrail] at hmem
    cases t with
    | file text => cases hmem
    | dir es =>
      obtain ⟨e, -, rfl⟩ := List.mem_map.mp hmem
      exact ⟨e.2, rfl⟩
  | deep =>
    obtain ⟨above', hstep⟩ := step_deep hs
    obtain ⟨c, hc, -⟩ := exists_tree?_of_isDir (Tree.isDir_of_mem_directories (hstep ▸ hu))
    exact ⟨c, hc⟩

end Step

/-! ## All parts -/

theorem listed_follow_cons {last : Bool} {part : SearchPart} {rest : List SearchPart} {s : Spot}
    {names : List String} {t : Tree} :
    Listed (follow last (part :: rest) s) names t ↔
      ∃ u ∈ step s part, (u.isDir || (rest.isEmpty && !last)) = true ∧
        Listed (follow last rest u) names t := by
  simp only [follow, Listed, List.mem_flatMap, List.mem_filter]
  grind

/-- **A search finds exactly the places whose names its parts take.** If `**` comes last, or if only
directories are asked for, there has to be a directory. -/
theorem listed_follow {last : Bool} {parts : List SearchPart} (hparts : .name ".." ∉ parts)
    {s : Spot} {t t' : Tree} (hs : s.tree? = some t) (ht : t.hasDistinctNames = true)
    {names : List String} :
    Listed (follow last parts s) names t' ↔
      ∃ front, names = s.names ++ front ∧ Takes parts front ∧ t.below? front = some t' ∧
        (parts ≠ [] → last = true ∨ parts.getLast? = some .deep → t'.isDir = true) := by
  induction parts generalizing s t with
  | nil =>
    rw [follow, listed_singleton, hs]
    constructor
    · rintro ⟨rfl, htree⟩
      exact ⟨[], by simp, .nil, htree, by simp⟩
    · rintro ⟨_, rfl, ⟨⟩, hbelow, -⟩
      exact ⟨by simp, hbelow⟩
  | cons part rest ih =>
    have hpart : part ≠ .name ".." := fun h => hparts (h ▸ List.mem_cons_self)
    have hrest : .name ".." ∉ rest := fun h => hparts (List.mem_cons_of_mem _ h)
    have hlast : rest ≠ [] → (part :: rest).getLast? = rest.getLast? := by
      intro hne
      obtain ⟨part', rest', rfl⟩ := List.exists_cons_of_ne_nil hne
      rfl
    rw [listed_follow_cons]
    constructor
    · rintro ⟨u, hu, hdir, hlisted⟩
      -- the place that the first part leads to, and its tree
      obtain ⟨c, hc⟩ := exists_tree?_of_mem_step hs hpart hu
      obtain ⟨front, hnames, htakes, hbelow, hdeep⟩ :=
        (listed_step hs ht hpart).mp ⟨u, hu, rfl, hc⟩
      obtain ⟨back, rfl, htakes', hbelow', hend⟩ :=
        (ih hrest hc (Tree.hasDistinctNames_of_below? ht hbelow)).mp hlisted
      refine ⟨front ++ back, by rw [hnames, List.append_assoc], .cons htakes htakes',
        Tree.below?_append_eq_some_iff.mpr ⟨c, hbelow, hbelow'⟩, fun _ hcase => ?_⟩
      by_cases hne : rest = []
      · subst hne
        cases htakes'
        obtain rfl := Option.some.inj hbelow'
        rw [isDir_of_tree? hc] at hdir
        rcases hcase with rfl | hcase
        · simpa using hdir
        · exact hdeep (Option.some.inj hcase)
      · exact hend hne (hlast hne ▸ hcase)
    · rintro ⟨_, rfl, htakes, hbelow, hend⟩
      obtain ⟨front, back, rfl, hfront, hback⟩ := takes_cons_iff.mp htakes
      obtain ⟨c, hc, hc'⟩ := Tree.below?_append_eq_some_iff.mp hbelow
      -- only the place of the last part may be a file
      have hdir : rest ≠ [] → c.isDir = true := fun hne =>
        Tree.isDir_of_below? hc' fun hnil => hend (List.cons_ne_nil _ _)
          (.inr ((hlast hne).trans (getLast?_of_takes_nil (hnil ▸ hback) hne)))
      have hself : rest = [] → c = t' := by
        rintro rfl
        cases hback
        exact Option.some.inj hc'
      obtain ⟨u, hu, hnames, htree⟩ : Listed (step s part) (s.names ++ front) c := by
        refine (listed_step hs ht hpart).mpr ⟨front, rfl, hfront, hc, ?_⟩
        rintro rfl
        by_cases hne : rest = []
        · exact hself hne ▸ hend (List.cons_ne_nil _ _) (.inr (hne ▸ rfl))
        · exact hdir hne
      refine ⟨u, hu, ?_, (ih hrest htree (Tree.hasDistinctNames_of_below? ht hc)).mpr
        ⟨back, by rw [hnames, List.append_assoc], hback, hc', fun hne hcase => ?_⟩⟩
      · rw [isDir_of_tree? htree]
        by_cases hne : rest = []
        · cases last with
          | true => simpa using hself hne ▸ hend (List.cons_ne_nil _ _) (.inl rfl)
          | false => simp [hne]
        · simp [hdir hne]
      · exact hend (List.cons_ne_nil _ _) ((hlast hne).symm ▸ hcase)

/-! ## Names that are too long -/

/-- Whether parts look up a name that is too long in a directory at or below a tree. -/
def LooksUpLongName (parts : List SearchPart) (t : Tree) : Prop :=
  ∃ front n back, parts = front ++ .name n :: back ∧ Path.isLongName n = true ∧
    ∃ names d, Takes front names ∧ t.below? names = some d ∧ d.isDir = true

theorem looksUpLongName_cons_iff {part : SearchPart} {rest : List SearchPart} {t : Tree}
    (hdir : t.isDir = true) :
    LooksUpLongName (part :: rest) t ↔
      (∃ n, part = .name n ∧ Path.isLongName n = true) ∨
        ∃ front c, part.Takes front ∧ t.below? front = some c ∧ c.isDir = true ∧
          LooksUpLongName rest c := by
  constructor
  · rintro ⟨_ | ⟨part', front⟩, n, back, hparts, hlong, names, d, htakes, hd, hdd⟩
    · exact .inl ⟨n, (List.cons.inj hparts).1, hlong⟩
    · obtain ⟨rfl, rfl⟩ := List.cons.inj hparts
      obtain ⟨first, others, rfl, hfirst, hothers⟩ := takes_cons_iff.mp htakes
      obtain ⟨c, hc, hd⟩ := Tree.below?_append_eq_some_iff.mp hd
      exact .inr ⟨first, c, hfirst, hc, Tree.isDir_of_below? hd fun _ => hdd,
        front, n, back, rfl, hlong, others, d, hothers, hd, hdd⟩
  · rintro (⟨n, rfl, hlong⟩ | ⟨first, c, hfirst, hc, -, front, n, back, rfl, hlong, others, d,
      hothers, hd, hdd⟩)
    · exact ⟨[], n, rest, rfl, hlong, [], t, .nil, rfl, hdir⟩
    · exact ⟨part :: front, n, back, rfl, hlong, first ++ others, d, .cons hfirst hothers,
        Tree.below?_append_eq_some_iff.mpr ⟨c, hc, hd⟩, hdd⟩

theorem meetsLongName_cons_iff {part : SearchPart} {rest : List SearchPart} {s : Spot} :
    meetsLongName (part :: rest) s = true ↔
      (∃ n, part = .name n ∧ Path.isLongName n = true) ∨
        ∃ u ∈ step s part, u.isDir = true ∧ meetsLongName rest u = true := by
  cases part <;> simp [meetsLongName]

/-- A search meets a name that is too long exactly if its parts look one up in a directory. -/
theorem meetsLongName_iff {parts : List SearchPart} (hparts : .name ".." ∉ parts) {s : Spot}
    {t : Tree} (hs : s.tree? = some t) (ht : t.hasDistinctNames = true) (hdir : t.isDir = true) :
    meetsLongName parts s = true ↔ LooksUpLongName parts t := by
  induction parts generalizing s t with
  | nil => simp [meetsLongName, LooksUpLongName]
  | cons part rest ih =>
    have hpart : part ≠ .name ".." := fun h => hparts (h ▸ List.mem_cons_self)
    have hrest : .name ".." ∉ rest := fun h => hparts (List.mem_cons_of_mem _ h)
    rw [meetsLongName_cons_iff, looksUpLongName_cons_iff hdir]
    refine or_congr_right ⟨?_, ?_⟩
    · rintro ⟨u, hu, hudir, hmeets⟩
      obtain ⟨c, hc, hcdir⟩ := exists_tree?_of_isDir hudir
      obtain ⟨front, -, htakes, hbelow, -⟩ := (listed_step hs ht hpart).mp ⟨u, hu, rfl, hc⟩
      exact ⟨front, c, htakes, hbelow, hcdir,
        (ih hrest hc (Tree.hasDistinctNames_of_below? ht hbelow) hcdir).mp hmeets⟩
    · rintro ⟨front, c, htakes, hbelow, hcdir, hlooks⟩
      obtain ⟨u, hu, -, htree⟩ := (listed_step hs ht hpart).mpr
        ⟨front, rfl, htakes, hbelow, fun _ => hcdir⟩
      exact ⟨u, hu, by rwa [isDir_of_tree? htree],
        (ih hrest htree (Tree.hasDistinctNames_of_below? ht hbelow) hcdir).mpr hlooks⟩

/-! ## Paths that are too long -/

end Search

/-- What the file system is asked about when a part is followed from a directory, as names from there: a
name is looked up, the directory is listed, or all directories at and below it are. -/
inductive SearchPart.Asks (t : Tree) : SearchPart → List String → Prop
  | name (n : String) : Asks t (.name n) [n]
  | wild (items : List Char) : Asks t (.wild items) []
  | deep {names : List String} {d : Tree} (hd : t.below? names = some d) (hdir : d.isDir = true) :
      Asks t .deep names

namespace Search

/-- What the file system is asked about when parts are followed from a tree, as names from there: what
the first part asks about and then, where that leads on, what the others do, and in the end whether the
place that was found is a file. -/
inductive Asks (last : Bool) : List SearchPart → Tree → List String → Prop
  | found (t : Tree) : Asks last [] t []
  | first {part : SearchPart} {t : Tree} {names : List String} (rest : List SearchPart)
      (h : part.Asks t names) : Asks last (part :: rest) t names
  | next {part : SearchPart} {rest : List SearchPart} {t c : Tree} {front names : List String}
      (hfront : part.Takes front) (hc : t.below? front = some c)
      (hdir : c.isDir = true ∨ part ≠ .deep ∧ rest = [] ∧ last = false) (h : Asks last rest c names) :
      Asks last (part :: rest) t (front ++ names)

theorem asks_nil_iff {last : Bool} {t : Tree} {names : List String} :
    Asks last [] t names ↔ names = [] := by
  constructor
  · rintro ⟨⟩
    rfl
  · rintro rfl
    exact .found t

theorem asks_cons_iff {last : Bool} {part : SearchPart} {rest : List SearchPart} {t : Tree}
    {names : List String} :
    Asks last (part :: rest) t names ↔ part.Asks t names ∨ ∃ front c back, names = front ++ back ∧
      part.Takes front ∧ t.below? front = some c ∧
      (c.isDir = true ∨ part ≠ .deep ∧ rest = [] ∧ last = false) ∧ Asks last rest c back := by
  constructor
  · intro h
    cases h with
    | first _ h => exact .inl h
    | next hfront hc hdir h => exact .inr ⟨_, _, _, rfl, hfront, hc, hdir, h⟩
  · rintro (h | ⟨front, c, back, rfl, hfront, hc, hdir, h⟩)
    · exact .first rest h
    · exact .next hfront hc hdir h

section LongPaths

variable {s : Spot} {t : Tree} {part : SearchPart}

theorem mem_asked_iff (hs : s.tree? = some t) (ht : t.hasDistinctNames = true)
    {names : List String} :
    names ∈ asked s part ↔ ∃ front, names = s.names ++ front ∧ part.Asks t front := by
  cases part with
  | name n =>
    rw [asked, List.mem_singleton]
    constructor
    · rintro rfl
      exact ⟨[n], rfl, .name n⟩
    · rintro ⟨_, rfl, ⟨⟩⟩
      rfl
  | wild items =>
    rw [asked, List.mem_singleton]
    constructor
    · rintro rfl
      exact ⟨[], (List.append_nil _).symm, .wild items⟩
    · rintro ⟨_, rfl, ⟨⟩⟩
      exact List.append_nil _
  | deep =>
    rw [asked, List.mem_map]
    constructor
    · rintro ⟨u, hu, rfl⟩
      obtain ⟨c, hc⟩ := exists_tree?_of_mem_step hs (by simp) hu
      obtain ⟨front, hnames, -, hbelow, hdir⟩ := (listed_step hs ht (by simp)).mp ⟨u, hu, rfl, hc⟩
      exact ⟨front, hnames, .deep hbelow (hdir rfl)⟩
    · rintro ⟨front, rfl, hasks⟩
      cases hasks with
      | deep hd hdir =>
        obtain ⟨u, hu, hnames, -⟩ := (listed_step hs ht (by simp)).mpr
          ⟨front, rfl, .deep front, hd, fun _ => hdir⟩
        exact ⟨u, hu, hnames⟩

theorem meetsLongPath_cons_iff {root : Path} {last : Bool} {rest : List SearchPart} :
    meetsLongPath root last (part :: rest) s = true ↔
      (∃ names ∈ asked s part, (root.append ⟨0, names⟩).isLong = true) ∨
        ∃ u ∈ step s part, (u.isDir = true ∨ rest = [] ∧ last = false) ∧
          meetsLongPath root last rest u = true := by
  simp [meetsLongPath]

end LongPaths

/-- A search meets a path that is too long exactly if it asks about one. -/
theorem meetsLongPath_iff {root : Path} {last : Bool} {parts : List SearchPart}
    (hparts : .name ".." ∉ parts) {s : Spot} {t : Tree} (hs : s.tree? = some t)
    (ht : t.hasDistinctNames = true) :
    meetsLongPath root last parts s = true ↔
      ∃ names, Asks last parts t names ∧ (root.append ⟨0, s.names ++ names⟩).isLong = true := by
  induction parts generalizing s t with
  | nil => simp [meetsLongPath, asks_nil_iff]
  | cons part rest ih =>
    have hpart : part ≠ .name ".." := fun h => hparts (h ▸ List.mem_cons_self)
    have hrest : .name ".." ∉ rest := fun h => hparts (List.mem_cons_of_mem _ h)
    rw [meetsLongPath_cons_iff]
    constructor
    · rintro (⟨names, hnames, hlong⟩ | ⟨u, hu, hdir, hlong⟩)
      · obtain ⟨front, rfl, hasks⟩ := (mem_asked_iff hs ht).mp hnames
        exact ⟨front, .first rest hasks, hlong⟩
      · obtain ⟨c, hc⟩ := exists_tree?_of_mem_step hs hpart hu
        obtain ⟨front, hnames, htakes, hbelow, hdeep⟩ :=
          (listed_step hs ht hpart).mp ⟨u, hu, rfl, hc⟩
        obtain ⟨back, hasks, hlong⟩ := (ih hrest hc (Tree.hasDistinctNames_of_below? ht hbelow)).mp hlong
        rw [hnames, List.append_assoc] at hlong
        refine ⟨front ++ back, .next htakes hbelow ?_ hasks, hlong⟩
        rw [isDir_of_tree? hc] at hdir
        by_cases hpd : part = .deep
        · exact .inl (hdeep hpd)
        · exact hdir.imp_right fun h => ⟨hpd, h⟩
    · rintro ⟨names, hasks, hlong⟩
      rcases asks_cons_iff.mp hasks with hasks | ⟨front, c, back, rfl, htakes, hc, hdir, hasks⟩
      · exact .inl ⟨_, (mem_asked_iff hs ht).mpr ⟨names, rfl, hasks⟩, hlong⟩
      · obtain ⟨u, hu, hnames, htree⟩ := (listed_step hs ht hpart).mpr
          ⟨front, rfl, htakes, hc, fun hpd => hdir.resolve_right fun h => h.1 hpd⟩
        refine .inr ⟨u, hu, ?_, (ih hrest htree (Tree.hasDistinctNames_of_below? ht hc)).mpr
          ⟨back, hasks, ?_⟩⟩
        · rw [isDir_of_tree? htree]
          exact hdir.imp_right And.right
        · rwa [hnames, List.append_assoc]

/-! ## Files -/

/-- Whether a search finds a file below a tree: its parts take the names of the file, and it asks for
no directory. -/
structure Finds (search : Search) (t : Tree) (names : List String) : Prop where
  takes : Takes search.parts names
  isFile : ∃ text, t.below? names = some (.file text)
  directories : search.directories = false
  last_ne : search.parts.getLast? ≠ some .deep

theorem listed_file_iff {search : Search} (hparts : .name ".." ∉ search.parts) {s : Spot} {t : Tree}
    (hs : s.tree? = some t) (hnil : s.names = []) (ht : t.hasDistinctNames = true)
    (hdir : t.isDir = true) {names : List String} :
    (∃ text, Listed (follow search.directories search.parts s) names (.file text)) ↔
      search.Finds t names := by
  simp only [listed_follow hparts hs ht, hnil, List.nil_append, exists_eq_left', Tree.isDir,
    Tree.isFile]
  constructor
  · rintro ⟨text, htakes, hbelow, hend⟩
    have hne : search.parts ≠ [] := by
      intro hparts
      rw [hparts] at htakes
      cases htakes
      rw [Option.some.inj hbelow] at hdir
      cases hdir
    refine ⟨htakes, ⟨text, hbelow⟩, ?_, fun hlast => ?_⟩
    · exact Bool.eq_false_iff.mpr fun hlast => by simpa using hend hne (.inl hlast)
    · simpa using hend hne (.inr hlast)
  · rintro ⟨htakes, ⟨text, hbelow⟩, hdirectories, hlast⟩
    exact ⟨text, htakes, hbelow, fun _ hcase => by simp [hdirectories, hlast] at hcase⟩

theorem mem_fileNames_iff {spots : List Spot} {names : List String} :
    names ∈ (spots.filter fun s => s.tree?.any Tree.isFile).map (·.names) ↔
      ∃ text, Listed spots names (.file text) := by
  rw [List.mem_map]
  constructor
  · rintro ⟨s, hs, rfl⟩
    obtain ⟨hs, hfile⟩ := List.mem_filter.mp hs
    cases ht : s.tree? with
    | none => simp [ht] at hfile
    | some t =>
      cases t with
      | file text => exact ⟨text, s, hs, rfl, ht⟩
      | dir es => simp [ht, Tree.isFile] at hfile
  · rintro ⟨text, s, hs, rfl, ht⟩
    exact ⟨s, List.mem_filter.mpr ⟨hs, by simp [ht, Tree.isFile]⟩, rfl⟩

/-- Whether a search fails: the path that it starts from, a name that it looks up or a path that it asks
about is too long. -/
def Fails (search : Search) (fs : FileSystem) (root : Path) (t : Tree) : Prop :=
  fs.fault? root = some .tooLong ∨ LooksUpLongName search.parts t ∨
    ∃ names, Asks search.directories search.parts t names ∧
      (root.append ⟨0, names⟩).isLong = true

/-- **What a search gives:** the files that it finds, unless it fails. -/
theorem files_spec {search : Search} (hparts : .name ".." ∉ search.parts) {fs : FileSystem}
    {root : Path} {t : Tree} (hroot : fs.find? root = some t) (ht : t.hasDistinctNames = true)
    (hdir : t.isDir = true) :
    (search.Fails fs root t → search.files fs root = .error .tooLong) ∧
    (¬search.Fails fs root t →
      ∃ found, search.files fs root = .ok found ∧ ∀ names, names ∈ found ↔ search.Finds t names) := by
  obtain ⟨trail, hfollow, hhead⟩ := Option.bind_eq_some_iff.mp hroot
  obtain ⟨above, rfl⟩ := List.head?_eq_some_iff.mp hhead
  cases t with
  | file text => cases hdir
  | dir es =>
    let start : Spot := ⟨[], .dir es :: above⟩
    have hmeets : (meetsLongName search.parts start ||
        meetsLongPath root search.directories search.parts start) = true ↔
        LooksUpLongName search.parts (.dir es) ∨
          ∃ names, Asks search.directories search.parts (.dir es) names ∧
            (root.append ⟨0, names⟩).isLong = true := by
      rw [Bool.or_eq_true]
      exact or_congr (meetsLongName_iff hparts rfl ht hdir) (meetsLongPath_iff hparts rfl ht)
    have hfiles : search.files fs root = if fs.fault? root = some .tooLong then .error .tooLong
        else if meetsLongName search.parts start ||
            meetsLongPath root search.directories search.parts start then .error .tooLong
        else .ok (((follow search.directories search.parts start).filter fun s =>
          s.tree?.any Tree.isFile).map (·.names)) := by
      rw [files, hfollow]
    rw [Fails, ← hmeets, hfiles]
    by_cases hfault : fs.fault? root = some .tooLong
    · simp [hfault]
    · rw [if_neg hfault]
      split
      · rename_i hlong
        exact ⟨fun _ => rfl, fun h => absurd (.inr hlong) h⟩
      · rename_i hlong
        refine ⟨fun h => absurd h (not_or.mpr ⟨hfault, hlong⟩), fun _ => ⟨_, rfl, fun names => ?_⟩⟩
        rw [mem_fileNames_iff]
        exact listed_file_iff hparts rfl rfl ht hdir

end Search

end Layering
