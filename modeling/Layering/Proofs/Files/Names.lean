import Layering.Files.Search
import Layering.Proofs.Path.Normal

/-!
# The names that lead to files

In a file system the entries of directories have names, which are not empty, hold no slash and are
neither `.` nor `..` (`Tree.WellNamed`). A search goes down by such names and up by `..`. What it
reaches by `..` is a directory, so the names of every file that it finds end with the name of an entry
(`isFileNames_of_mem_files`).
-/

namespace Layering

open PathText

/-- A tree in which each entry of a directory has a name. -/
inductive Tree.WellNamed : Tree → Prop
  | file (text : Option String) : WellNamed (.file text)
  | dir {entries : List (String × Tree)} (names : ∀ e ∈ entries, IsName e.1.toList)
      (trees : ∀ e ∈ entries, WellNamed e.2) : WellNamed (.dir entries)

mutual

/-- Whether each entry of a directory in a tree has a name. -/
def Tree.hasNames : Tree → Bool
  | .file _ => true
  | .dir entries => Tree.entriesHaveNames entries

/-- Whether entries have names, and so has each entry in their trees. -/
def Tree.entriesHaveNames : List (String × Tree) → Bool
  | [] => true
  | (name, t) :: entries => decide (IsName name.toList) && t.hasNames && entriesHaveNames entries

end

mutual

theorem Tree.hasNames_iff : ∀ t : Tree, t.hasNames = true ↔ t.WellNamed
  | .file text => by simpa [Tree.hasNames] using WellNamed.file text
  | .dir entries => by
    rw [Tree.hasNames, Tree.entriesHaveNames_iff]
    constructor
    · exact fun h => .dir (fun e he => (h e he).1) fun e he => (h e he).2
    · rintro (_ | ⟨names, trees⟩)
      exact fun e he => ⟨names e he, trees e he⟩

theorem Tree.entriesHaveNames_iff : ∀ entries : List (String × Tree),
    Tree.entriesHaveNames entries = true ↔ ∀ e ∈ entries, IsName e.1.toList ∧ e.2.WellNamed
  | [] => by simp [Tree.entriesHaveNames]
  | (name, t) :: entries => by
    rw [List.forall_mem_cons, ← Tree.entriesHaveNames_iff entries, ← Tree.hasNames_iff t]
    simp only [Tree.entriesHaveNames, Bool.and_eq_true, decide_eq_true_eq]

end

instance (t : Tree) : Decidable t.WellNamed := decidable_of_iff _ t.hasNames_iff

/-- A step that a search takes: upwards, or down by a name. -/
def IsStep (n : String) : Prop := n = ".." ∨ IsName n.toList

/-- The names that lead to a file: steps, the last of them by a name. -/
structure IsFileNames (names : List String) : Prop where
  steps : ∀ n ∈ names, IsStep n
  ends_with_name : ∃ front last, names = front ++ [last] ∧ IsName last.toList

/-! ## Trails -/

namespace Tree

theorem WellNamed.of_child? {t c : Tree} {name : String} (h : t.WellNamed)
    (hc : t.child? name = some c) : IsName name.toList ∧ c.WellNamed ∧ t.isDir = true := by
  cases h with
  | file text => cases hc
  | dir names trees =>
    obtain ⟨before, after, rfl, -⟩ := List.lookup_eq_some_iff.mp hc
    have hmem : (name, c) ∈ before ++ (name, c) :: after := by simp
    exact ⟨names _ hmem, trees _ hmem, rfl⟩

/-- A tree with the directories above it. -/
structure IsTrail (trail : List Tree) : Prop where
  wellNamed : ∀ t ∈ trail, t.WellNamed
  isDir_above : ∀ t ∈ trail.tail, t.isDir = true

theorem IsTrail.cons {t : Tree} {trail : List Tree} (h : IsTrail trail) (ht : t.WellNamed)
    (hdir : ∀ u ∈ trail.head?, u.isDir = true) : IsTrail (t :: trail) where
  wellNamed := List.forall_mem_cons.mpr ⟨ht, h.wellNamed⟩
  isDir_above := by
    cases trail with
    | nil => simp
    | cons u above => exact List.forall_mem_cons.mpr ⟨hdir u rfl, h.isDir_above⟩

/-- Where `..` leads from a directory there is a directory. -/
theorem IsTrail.up {t : Tree} {above : List Tree} (h : IsTrail (t :: above)) (ht : t.isDir = true) :
    IsTrail (if above.isEmpty then [t] else above) ∧
      ∀ u ∈ (if above.isEmpty then [t] else above).head?, u.isDir = true := by
  cases above with
  | nil => exact ⟨h, by simpa using ht⟩
  | cons u above =>
    have hwell := List.forall_mem_cons.mp h.wellNamed
    have hdir := List.forall_mem_cons.mp h.isDir_above
    exact ⟨⟨hwell.2, hdir.2⟩, by simpa using hdir.1⟩

theorem follow_up (t : Tree) (above : List Tree) :
    Tree.follow (t :: above) [".."] =
      if t.isDir then some (if above.isEmpty then [t] else above) else none := by
  simp [Tree.follow]

theorem follow_name {name : String} (h : name ≠ "..") (t : Tree) (above : List Tree) :
    Tree.follow (t :: above) [name] = (t.child? name).map (· :: t :: above) := by
  simp only [Tree.follow, if_neg h]
  cases t.child? name <;> rfl

theorem IsTrail.follow {trail trail' : List Tree} {names : List String} (h : IsTrail trail)
    (hfollow : Tree.follow trail names = some trail') : IsTrail trail' := by
  fun_induction Tree.follow trail names with
  | case1 trail => exact Option.some.inj hfollow ▸ h
  | case2 => cases hfollow
  | case3 t above names ht ih => exact ih (h.up ht).1 hfollow
  | case4 => cases hfollow
  | case5 t above name names _ c hc ih =>
    obtain ⟨-, hwell, hdir⟩ := (h.wellNamed t List.mem_cons_self).of_child? hc
    exact ih (h.cons hwell (by simpa using hdir)) hfollow
  | case6 => cases hfollow

end Tree

/-! ## Searches -/

namespace Spot

/-- A place that a search can reach. -/
structure IsReached (s : Spot) : Prop where
  isTrail : Tree.IsTrail s.trail
  steps : ∀ n ∈ s.names, IsStep n
  file_named : s.tree?.any Tree.isFile = true →
    ∃ front last, s.names = front ++ [last] ∧ IsName last.toList

theorem isReached_of_isDir {s : Spot} (htrail : Tree.IsTrail s.trail) (hsteps : ∀ n ∈ s.names, IsStep n)
    (hdir : ∀ t ∈ s.tree?, t.isDir = true) : s.IsReached where
  isTrail := htrail
  steps := hsteps
  file_named := by
    intro hfile
    cases ht : s.tree? with
    | none => simp [ht] at hfile
    | some t =>
      have htree := hdir t ht
      simp only [ht, Option.any_some] at hfile
      simp [Tree.isDir, hfile] at htree

theorem isReached_of_name {names : List String} {trail : List Tree} {name : String}
    (htrail : Tree.IsTrail trail) (hsteps : ∀ n ∈ names, IsStep n) (hname : IsName name.toList) :
    IsReached ⟨names ++ [name], trail⟩ where
  isTrail := htrail
  steps := by simpa [or_imp, forall_and] using ⟨hsteps, .inr hname⟩
  file_named := fun _ => ⟨names, name, rfl, hname⟩

theorem IsReached.child? {s t : Spot} {name : String} (h : s.IsReached)
    (ht : s.child? name = some t) : t.IsReached := by
  obtain ⟨trail, hfollow, rfl⟩ := Option.map_eq_some_iff.mp ht
  have htrail := h.isTrail.follow hfollow
  cases hs : s.trail with
  | nil =>
    rw [hs] at hfollow
    cases hfollow
  | cons u above =>
    rw [hs] at hfollow
    by_cases hup : name = ".."
    · subst hup
      rw [Tree.follow_up] at hfollow
      split at hfollow
      · rename_i hdir
        have hu := ((hs ▸ h.isTrail : Tree.IsTrail (u :: above)).up hdir).2
        rw [Option.some.inj hfollow] at hu
        refine isReached_of_isDir htrail ?_ hu
        simpa [or_imp, forall_and] using ⟨h.steps, .inl rfl⟩
      · cases hfollow
    · rw [Tree.follow_name hup] at hfollow
      obtain ⟨c, hc, -⟩ := Option.map_eq_some_iff.mp hfollow
      have hwell := h.isTrail.wellNamed u (by rw [hs]; exact List.mem_cons_self)
      exact isReached_of_name htrail h.steps (hwell.of_child? hc).1

theorem IsReached.children {s t : Spot} (h : s.IsReached) (ht : t ∈ s.children) : t.IsReached := by
  unfold Spot.children at ht
  split at ht
  · rename_i entries above hs
    obtain ⟨⟨name, tree⟩, hmem, rfl⟩ := List.mem_map.mp ht
    have htrail := h.isTrail
    rw [hs] at htrail
    cases htrail.wellNamed _ List.mem_cons_self with
    | dir names trees =>
      exact isReached_of_name (htrail.cons (trees _ hmem) (by simp [Tree.isDir, Tree.isFile]))
        h.steps (names _ hmem)
  · cases ht

end Spot

mutual

theorem Tree.isReached_of_mem_directories {names : List String} {above : List Tree} {s : Spot}
    (hsteps : ∀ n ∈ names, IsStep n) :
    ∀ t : Tree, Tree.IsTrail (t :: above) → s ∈ t.directories names above → s.IsReached
  | .file _, _, hs => by cases hs
  | .dir es, h, hs => by
    rcases List.mem_cons.mp hs with rfl | hs
    · exact Spot.isReached_of_isDir h hsteps (by simp [Spot.tree?, Tree.isDir, Tree.isFile])
    · cases h.wellNamed _ List.mem_cons_self with
      | dir hnames htrees =>
        refine isReached_of_mem_entryDirectories hsteps es (fun e he => ⟨hnames e he, ?_⟩) hs
        exact h.cons (htrees e he) (by simp [Tree.isDir, Tree.isFile])

theorem Tree.isReached_of_mem_entryDirectories {names : List String} {above : List Tree} {s : Spot}
    (hsteps : ∀ n ∈ names, IsStep n) :
    ∀ es : List (String × Tree),
      (∀ e ∈ es, IsName e.1.toList ∧ Tree.IsTrail (e.2 :: above)) →
      s ∈ Tree.entryDirectories names above es → s.IsReached
  | [], _, hs => by cases hs
  | (name, t) :: es, h, hs => by
    obtain ⟨⟨hname, htrail⟩, hes⟩ := List.forall_mem_cons.mp h
    rcases List.mem_append.mp hs with hs | hs
    · refine isReached_of_mem_directories ?_ t htrail hs
      simpa [or_imp, forall_and] using ⟨hsteps, .inr hname⟩
    · exact isReached_of_mem_entryDirectories hsteps es hes hs

end

namespace Search

/-- One part of a search pattern leads to places that can be reached. -/
theorem isReached_of_mem_step {s t : Spot} {part : SearchPart} (h : s.IsReached)
    (ht : t ∈ step s part) : t.IsReached := by
  cases part with
  | name n => exact h.child? (by simpa [step] using ht)
  | wild w => exact h.children (List.mem_of_mem_filter ht)
  | deep =>
    unfold step at ht
    dsimp only at ht
    split at ht
    · rename_i u above hs
      exact Tree.isReached_of_mem_directories h.steps u (hs ▸ h.isTrail) ht
    · cases ht

/-- So do all parts, one after the other. -/
theorem isReached_of_mem_follow {last : Bool} {parts : List SearchPart} {s t : Spot}
    (h : s.IsReached) (ht : t ∈ follow last parts s) : t.IsReached := by
  induction parts generalizing s with
  | nil => exact List.mem_singleton.mp ht ▸ h
  | cons part rest ih =>
    obtain ⟨u, hu, ht⟩ := List.mem_flatMap.mp ht
    exact ih (isReached_of_mem_step h (List.mem_of_mem_filter hu)) ht

theorem isFileNames_of_mem_files {search : Search} {fs : FileSystem} {root : Path}
    {found : List (List String)} {names : List String} (hfs : fs.root.WellNamed)
    (h : search.files fs root = .ok found) (hnames : names ∈ found) : IsFileNames names := by
  unfold files at h
  split at h
  · cases h
  · split at h
    · rename_i es above hfollow
      dsimp only at h
      split at h
      · cases h
      · cases h
        obtain ⟨s, hs, rfl⟩ := List.mem_map.mp hnames
        obtain ⟨hs, hfile⟩ := List.mem_filter.mp hs
        have hroot : Tree.IsTrail [fs.root] := ⟨by simpa using hfs, by simp⟩
        have hstart : Spot.IsReached ⟨[], .dir es :: above⟩ :=
          Spot.isReached_of_isDir (hroot.follow hfollow) (by simp)
            (by simp [Spot.tree?, Tree.isDir, Tree.isFile])
        have hreached := isReached_of_mem_follow hstart hs
        exact ⟨hreached.steps, hreached.file_named hfile⟩
    · cases h
      cases hnames

end Search

end Layering
