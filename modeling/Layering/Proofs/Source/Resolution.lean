import Layering.Proofs.Glob.Containment
import Layering.Proofs.Rule.DottedImport

/-!
# Where relative imports lead

An import path is walked from the directory of the importing file. As long as the walk does not
leave the project, a directory around the project stays at the bottom of the stack of segments
(`foldl_pushSegment_append`), so that the place where the import leads moves with the project
(`normal_join_directory_below`). The project itself is the exception: its normal path is `.`, and
not the empty path. Hence an import finds the same file in a project and in the project moved below
a directory, unless it leads to the project itself, whose index files are not found
(`resolvePath_below_cases`).

A dotted name counts its levels along the directories above the importing file. These come to an
end at the project, and further levels stay there. So a name that leads out of the project finds
what it finds from the project itself (`resolveModule_levels`).
-/

namespace Layering

open PathText Text

namespace PathText

/-! ## A walk below a directory -/

theorem up_mem_foldl {st : List (List Char)} (h : up ∈ st) (ss : List (List Char)) :
    up ∈ ss.foldl (pushSegment false) st := by
  induction ss generalizing st with
  | nil => exact h
  | cons s ss ih => exact ih (up_mem_pushSegment h s)

theorem pushSegment_append {st : List (List Char)} {s : List Char}
    (h : up ∉ pushSegment false st s) (bottom : List (List Char)) :
    pushSegment false (st ++ bottom) s = pushSegment false st s ++ bottom := by
  by_cases hskip : s = [] ∨ s = here
  · simp [pushSegment, hskip]
  by_cases hup : s = up
  · subst hup
    cases st with
    | nil => exact absurd h (by decide)
    | cons top below =>
      rw [List.cons_append, pushSegment_up_cons, pushSegment_up_cons]
      split <;> rfl
  · simp [pushSegment, hskip, hup]

/-- A walk that does not climb leaves what is at the bottom of the stack where it is. -/
theorem foldl_pushSegment_append {ss st : List (List Char)}
    (h : up ∉ ss.foldl (pushSegment false) st) (bottom : List (List Char)) :
    ss.foldl (pushSegment false) (st ++ bottom) = ss.foldl (pushSegment false) st ++ bottom := by
  induction ss generalizing st with
  | nil => rfl
  | cons s ss ih =>
    have hs : up ∉ pushSegment false st s := fun hmem => h (up_mem_foldl hmem ss)
    rw [List.foldl_cons, pushSegment_append hs, ih h, List.foldl_cons]

theorem stack_join_directory {p i : List Char} (hp : IsRelative p) (hi : IsRelative i) :
    IsRelative (join (directory p) i) ∧ stack (join (directory p) i) =
      ((segments p).dropLast ++ segments i).foldl (pushSegment false) [] := by
  obtain ⟨hdirectory, hstack⟩ := directory_spec hp
  obtain ⟨hjoin, hwalk⟩ := join_spec hdirectory hi
  refine ⟨hjoin, ?_⟩
  rw [hwalk, hstack, List.foldl_append]

theorem here_not_mem_stack (p : List Char) : here ∉ stack p := by
  obtain ⟨names, k, hst, hnames⟩ := isReduced_stack p
  rw [hst, List.mem_append]
  rintro (hmem | hmem)
  · exact (hnames here hmem).ne_here rfl
  · exact absurd (List.eq_of_mem_replicate hmem) (by decide)

theorem normal_eq_here_iff {p : List Char} (h : IsRelative p) : normal p = here ↔ stack p = [] := by
  constructor
  · intro hnormal
    by_contra hne
    have hsegments := segments_normal h
    rw [hnormal, if_neg hne, segments_of_not_mem (by decide)] at hsegments
    exact here_not_mem_stack p (List.mem_reverse.mp (hsegments ▸ List.mem_singleton_self here))
  · intro hst
    rw [normal_of_isRelative h, if_pos hst]

/-- No normal path starts with `./`. -/
theorem normal_here_slash_ne (p : List Char) : normal (here ++ '/' :: p) ≠ here ++ '/' :: p := by
  intro hnormal
  have hsegments := segments_normal (show IsRelative (here ++ '/' :: p) by simp [IsRelative, here])
  rw [hnormal, segments_append_slash, segments_of_not_mem (by decide), List.singleton_append]
    at hsegments
  split at hsegments
  · exact segments_ne_nil p (List.cons.inj hsegments).2
  · apply here_not_mem_stack (here ++ '/' :: p)
    rw [← List.mem_reverse, ← hsegments]
    exact List.mem_cons_self

theorem isRelative_below {d : List Char} (hd : IsName d) (p : List Char) :
    IsRelative (d ++ '/' :: p) := by
  obtain ⟨c, d, rfl⟩ := List.exists_cons_of_ne_nil hd.ne_nil
  have hc : c ≠ '/' := fun hc => hd.slash_not_mem (by simp [hc])
  simpa [IsRelative] using hc

/-- **Where a path leads from a file moves with the files,** if the path stays inside the project.
The project itself becomes the directory that it moves into. -/
theorem normal_join_directory_below {s i d : List Char} (hs : IsRelative s) (hi : IsRelative i)
    (hinside : StaysInside (join (directory s) i)) (hd : IsName d) :
    normal (join (directory (d ++ '/' :: s)) i) =
      if normal (join (directory s) i) = here then d
      else d ++ '/' :: normal (join (directory s) i) := by
  obtain ⟨hjoin, hstack⟩ := stack_join_directory hs hi
  obtain ⟨hjoin', hstack'⟩ := stack_join_directory (isRelative_below hd s) hi
  have hbelow : stack (join (directory (d ++ '/' :: s)) i) =
      stack (join (directory s) i) ++ [d] := by
    have hup : up ∉ ((segments s).dropLast ++ segments i).foldl (pushSegment false) [] := by
      rw [← hstack, up_mem_stack_iff]
      exact not_not.mpr hinside
    rw [hstack', hstack, ← foldl_pushSegment_append hup, segments_append_slash,
      segments_of_not_mem hd.slash_not_mem, List.singleton_append,
      List.dropLast_cons_of_ne_nil (segments_ne_nil s), List.cons_append, List.foldl_cons,
      pushSegment_of_isName hd, List.nil_append]
  rw [normal_of_isRelative hjoin', hbelow, if_neg (by simp), List.reverse_append]
  by_cases hroot : stack (join (directory s) i) = []
  · rw [if_pos ((normal_eq_here_iff hjoin).mpr hroot), hroot]
    rfl
  · rw [if_neg (mt (normal_eq_here_iff hjoin).mp hroot), normal_of_isRelative hjoin, if_neg hroot,
      List.reverse_singleton, ofSegments_append (by simp) (by simpa using hroot),
      ofSegments_singleton]

end PathText

namespace Source

/-! ## A project below a directory -/

/-- The files of a project that is moved below a directory. -/
def below (d : String) (known : Known) : Known := known.map fun e => (d ++ "/" ++ e.1, e.2)

/-- The endings of files that a path may lack. -/
def fileSuffixes : List String := ["", ".ts", ".tsx", ".js", ".jsx", ".mjs", ".mts"]

/-- The files that stand for their directory, in the order in which they are tried. -/
def indexNames : List String :=
  ["index.ts", "index.tsx", "index.js", "index.jsx", "index.mjs", "index.mts"]

theorem pathSuffixes_eq : pathSuffixes = fileSuffixes ++ indexNames.map ("/" ++ ·) := by
  decide

theorem slash_not_mem_fileSuffixes {s : String} (h : s ∈ fileSuffixes) : '/' ∉ s.toList := by
  revert s
  simp [fileSuffixes]

theorem lookup_below (d p : String) (known : Known) :
    (below d known).lookup (d ++ "/" ++ p) = known.lookup p := by
  rw [List.lookup_eq_findSome?, List.lookup_eq_findSome?, below, List.findSome?_map]
  congr 1
  funext e
  simp [String.append_right_inj]

theorem lookup_below_eq_none {p : String} (d : String) (known : Known) (h : '/' ∉ p.toList) :
    (below d known).lookup p = none := by
  rw [List.lookup_eq_none_iff]
  intro e he
  obtain ⟨e, -, rfl⟩ := List.mem_map.mp he
  rw [bne_iff_ne]
  rintro rfl
  simp at h

/-- Below a directory, the same suffixes behind the same path find the same file. -/
theorem firstKnown_below (d : String) (known : Known) (base : List Char) (suffixes : List String) :
    firstKnown (below d known) (d.toList ++ '/' :: base) suffixes =
      firstKnown known base suffixes := by
  have htext : String.ofList (d.toList ++ '/' :: base) = d ++ "/" ++ String.ofList base := by
    rw [← String.toList_inj]
    simp
  rw [firstKnown, firstKnown]
  congr 1
  funext s
  rw [htext, String.append_assoc, lookup_below]

/-- From the directory that a project is moved into, its index files are found. -/
theorem firstKnown_below_self {d : String} (known : Known) (hd : '/' ∉ d.toList) :
    firstKnown (below d known) d.toList pathSuffixes =
      indexNames.findSome? fun n => known.lookup n := by
  have hfiles : fileSuffixes.findSome? (fun s =>
      (below d known).lookup (String.ofList d.toList ++ s)) = none := by
    rw [List.findSome?_eq_none_iff]
    intro s hs
    apply lookup_below_eq_none
    simpa [hd] using slash_not_mem_fileSuffixes hs
  rw [firstKnown, pathSuffixes_eq, List.findSome?_append, hfiles, Option.none_or,
    List.findSome?_map]
  congr 1
  funext n
  rw [Function.comp_apply, String.ofList_toList, ← String.append_assoc, lookup_below]

/-- From the project itself, whose path is `.`, no index file is found: none has a normal path that
starts with `./`. -/
theorem firstKnown_here {known : Known} (h : ∀ e ∈ known, normal e.1.toList = e.1.toList) :
    firstKnown known here pathSuffixes = firstKnown known here fileSuffixes := by
  have hindexes : (indexNames.map ("/" ++ ·)).findSome? (fun s =>
      known.lookup (String.ofList here ++ s)) = none := by
    rw [List.findSome?_eq_none_iff]
    intro s hs
    obtain ⟨n, -, rfl⟩ := List.mem_map.mp hs
    rw [List.lookup_eq_none_iff]
    intro e he
    rw [bne_iff_ne]
    intro hkey
    have htext : e.1.toList = here ++ '/' :: n.toList := by
      rw [← hkey]
      simp
    exact normal_here_slash_ne n.toList (htext ▸ h e he)
  rw [firstKnown, pathSuffixes_eq, List.findSome?_append, hindexes, Option.or_none, firstKnown]

/-- **An import finds the same file wherever its project is, unless it leads to the project.** Let
the path of an import stay inside a project whose files have normal paths, and let the project move
below a directory. If the import does not lead to the project itself, it finds the same file as
before. If it does, the index files of the project are found below the directory, but not before:
there only files are tried whose names are a dot with an ending. -/
theorem resolvePath_below_cases {known : Known}
    (hknown : ∀ e ∈ known, normal e.1.toList = e.1.toList) {source path d : String}
    (hsource : IsRelative source.toList) (hpath : IsRelative path.toList)
    (hinside : StaysInside (join (directory source.toList) path.toList)) (hd : IsName d.toList) :
    (normal (join (directory source.toList) path.toList) ≠ here →
        resolvePath (below d known) (d ++ "/" ++ source) path = resolvePath known source path) ∧
      (normal (join (directory source.toList) path.toList) = here →
        resolvePath known source path = firstKnown known here fileSuffixes ∧
          resolvePath (below d known) (d ++ "/" ++ source) path =
            indexNames.findSome? fun n => known.lookup n) := by
  have hmoved : (d ++ "/" ++ source).toList = d.toList ++ '/' :: source.toList := by simp
  simp only [resolvePath, hmoved, normal_join_directory_below hsource hpath hinside hd]
  refine ⟨fun hplace => ?_, fun hroot => ⟨?_, ?_⟩⟩
  · rw [if_neg hplace, firstKnown_below]
  · rw [hroot, firstKnown_here hknown]
  · rw [if_pos hroot, firstKnown_below_self known hd.slash_not_mem]

/-- A project with an index file at the top. -/
def indexAtTop : Known := [("index.ts", "index"), ("app.ts", "app")]

/-- The import of the project itself finds its index file only below a directory. -/
theorem resolvePath_indexAtTop :
    (∀ e ∈ indexAtTop, normal e.1.toList = e.1.toList) ∧ IsRelative "app.ts".toList ∧
      IsRelative ".".toList ∧ StaysInside (join (directory "app.ts".toList) ".".toList) ∧
      IsName "lib".toList ∧ resolvePath indexAtTop "app.ts" "." = none ∧
      resolvePath (below "lib" indexAtTop) "lib/app.ts" "." = some "index" := by
  have hknown : ∀ e ∈ indexAtTop, normal e.1.toList = e.1.toList := by decide +kernel
  have hsource : IsRelative "app.ts".toList := by simp [IsRelative]
  have hpath : IsRelative ".".toList := by simp [IsRelative]
  have hroot : normal (join (directory "app.ts".toList) ".".toList) = here := by decide +kernel
  have hinside : StaysInside (join (directory "app.ts".toList) ".".toList) := by
    rw [← not_not (a := StaysInside _), ← up_mem_stack_iff]
    decide +kernel
  have hd : IsName "lib".toList := by decide +kernel
  obtain ⟨htop, hbelow⟩ := (resolvePath_below_cases hknown hsource hpath hinside hd).2 hroot
  refine ⟨hknown, hsource, hpath, hinside, hd, htop.trans ?_, hbelow.trans ?_⟩
  · decide +kernel
  · decide +kernel

/-! ## Levels of a dotted name -/

/-- A part of a dotted name. -/
structure IsPart (s : List Char) : Prop where
  ne_nil : s ≠ []
  dot_not_mem : '.' ∉ s
  slash_not_mem : '/' ∉ s

theorem IsPart.isName {s : List Char} (h : IsPart s) : IsName s where
  ne_nil := h.ne_nil
  ne_here := fun hs => h.dot_not_mem (by simp [hs, here])
  ne_up := fun hs => h.dot_not_mem (by simp [hs, up])
  slash_not_mem := h.slash_not_mem

/-- The relative name with a number of dots in front of its parts, between which dots stand too. -/
def relativeName (n : ℕ) (parts : List (List Char)) : String :=
  String.ofList (List.replicate n '.' ++ joinWith ['.'] parts)

/-- The file that the parts of a name lead to from a directory: the file of that name, else the
package of that name. Without parts it is the package of the directory. -/
def moduleAt (known : Known) (dir parts : List (List Char)) : Option String :=
  let package := known.lookup (String.ofList (ofSegments (dir ++ parts ++ ["__init__.py".toList])))
  if parts = [] then package
  else (known.lookup (String.ofList (ofSegments (dir ++ parts)) ++ ".py")).or package

theorem joinWith_eq_nil_iff {parts : List (List Char)} (h : ∀ s ∈ parts, IsPart s) :
    joinWith ['.'] parts = [] ↔ parts = [] := by
  fun_cases joinWith ['.'] parts with
  | case1 => simp
  | case2 s => simpa using (h s (by simp)).ne_nil
  | case3 s ss => simp

theorem head?_joinWith_ne {parts : List (List Char)} (h : ∀ s ∈ parts, IsPart s) :
    (joinWith ['.'] parts).head? ≠ some '.' := by
  cases parts with
  | nil => simp [joinWith]
  | cons s ss =>
    obtain ⟨c, s, rfl⟩ := List.exists_cons_of_ne_nil (h s List.mem_cons_self).ne_nil
    have hc : c ≠ '.' := fun hc => (h _ List.mem_cons_self).dot_not_mem (by simp [hc])
    cases ss <;> simp [joinWith, hc]

theorem dropWhile_dots {bare : List Char} (h : bare.head? ≠ some '.') (n : ℕ) :
    (List.replicate n '.' ++ bare).dropWhile (· = '.') = bare := by
  rw [List.dropWhile_append_of_pos fun c hc => by simp [List.eq_of_mem_replicate hc]]
  cases bare with
  | nil => rfl
  | cons c bare =>
    have hc : c ≠ '.' := by simpa using h
    simp [hc]

theorem dotsToSlashes_of_not_mem {s : List Char} (h : '.' ∉ s) : dotsToSlashes s = s := by
  refine (List.map_congr_left fun c hc => ?_).trans (List.map_id s)
  have hne : c ≠ '.' := fun hdot => h (hdot ▸ hc)
  simp [hne]

/-- With slashes in the place of dots, the parts of a name are the segments of a path. -/
theorem dotsToSlashes_joinWith {parts : List (List Char)} (h : ∀ s ∈ parts, IsPart s) :
    dotsToSlashes (joinWith ['.'] parts) = ofSegments parts := by
  rw [ofSegments]
  induction parts with
  | nil => rfl
  | cons s ss ih =>
    obtain ⟨hs, hss⟩ := List.forall_mem_cons.mp h
    have hpart := dotsToSlashes_of_not_mem hs.dot_not_mem
    cases ss with
    | nil => exact hpart
    | cons t ts =>
      have hrest := ih hss
      simp only [dotsToSlashes] at hpart hrest
      simp [joinWith, dotsToSlashes, hpart, hrest]

/-- Names lead from a directory to the path that they are added to. -/
theorem normal_join_names {st names : List (List Char)} (hst : IsReduced st)
    (hnames : ∀ s ∈ names, IsName s) (hne : names ≠ []) :
    normal (join (ofSegments st.reverse) (ofSegments names)) =
      ofSegments (st.reverse ++ names) := by
  have hrelative : IsRelative (ofSegments names) :=
    isRelative_ofSegments fun s hs => ⟨(hnames s hs).slash_not_mem, (hnames s hs).ne_nil⟩
  obtain ⟨hjoin, hstack⟩ := join_spec (isRelative_ofSegments_reverse hst) hrelative
  rw [stack_ofSegments_reverse hst, segments_ofSegments hne fun s hs => (hnames s hs).slash_not_mem,
    foldl_pushSegment_names hnames] at hstack
  rw [normal_of_isRelative hjoin, hstack, if_neg (by simp [hne]), List.reverse_append,
    List.reverse_reverse]

/-- The directories above a file with a normal path, as they are left when the path is walked. -/
theorem dropLast_segments_eq {p : List Char} (hp : IsRelative p) (hnormal : normal p = p) :
    (segments p).dropLast = (stack p).tail.reverse := by
  have hsegments := segments_normal hp
  rw [hnormal] at hsegments
  rw [hsegments]
  split
  · rename_i hst
    rw [hst]
    rfl
  · rw [List.dropLast_reverse]

theorem rdrop_dropLast_segments {p : List Char} (hp : IsRelative p) (hnormal : normal p = p)
    (n : ℕ) : (segments p).dropLast.rdrop n = ((stack p).tail.drop n).reverse := by
  rw [List.rdrop_eq_reverse_drop_reverse, dropLast_segments_eq hp hnormal, List.reverse_reverse]

theorem above_directory {p : List Char} (hp : IsRelative p) (hnormal : normal p = p) (n : ℕ) :
    above n (directory p) = ofSegments ((segments p).dropLast.rdrop n) := by
  have hdirectory := directory_normal hp
  rw [hnormal] at hdirectory
  rw [hdirectory, above_ofSegments_reverse (isReduced_stack p).tail.slash_not_mem,
    rdrop_dropLast_segments hp hnormal]

theorem firstKnown_moduleSuffixes (known : Known) (base : List Char) :
    firstKnown known base moduleSuffixes = (known.lookup (String.ofList base ++ ".py")).or
      (known.lookup (String.ofList base ++ "/__init__.py")) := by
  rw [firstKnown, moduleSuffixes, List.findSome?_cons, List.findSome?_singleton]
  cases known.lookup (String.ofList base ++ ".py") <;> rfl

theorem lookup_package {known : Known} {st : List (List Char)} (hst : IsReduced st) :
    known.lookup (String.ofList (normal (join (ofSegments st.reverse) "__init__.py".toList))) =
      moduleAt known st.reverse [] := by
  have hinit : ∀ s ∈ ["__init__.py".toList], IsName s := by
    rw [List.forall_mem_singleton]
    decide
  have hplace := normal_join_names hst hinit (by simp)
  rw [ofSegments_singleton] at hplace
  rw [moduleAt, if_pos rfl, hplace, List.append_nil]

theorem firstKnown_parts {known : Known} {st parts : List (List Char)} (hst : IsReduced st)
    (hparts : ∀ s ∈ parts, IsPart s) (hne : parts ≠ []) :
    firstKnown known (normal (join (ofSegments st.reverse) (ofSegments parts))) moduleSuffixes =
      moduleAt known st.reverse parts := by
  have hpackage : String.ofList (ofSegments (st.reverse ++ parts ++ ["__init__.py".toList])) =
      String.ofList (ofSegments (st.reverse ++ parts)) ++ "/__init__.py" := by
    rw [ofSegments_append (by simp [hne]) (by simp), ofSegments_singleton, ← String.toList_inj]
    simp
  rw [normal_join_names hst (fun s hs => (hparts s hs).isName) hne, firstKnown_moduleSuffixes,
    moduleAt, if_neg hne, hpackage]

/-- A relative name leads to its parts, from the directory that its levels lead to. -/
theorem resolveModule_relativeName (known : Known) {source : String} (hs : IsRelative source.toList)
    (hnormal : normal source.toList = source.toList) {parts : List (List Char)}
    (hparts : ∀ s ∈ parts, IsPart s) (n : ℕ) :
    resolveModule known source (relativeName n parts) =
      moduleAt known ((segments source.toList).dropLast.rdrop (n - 1)) parts := by
  have hbare : (relativeName n parts).toList.dropWhile (· = '.') = joinWith ['.'] parts := by
    rw [relativeName, String.toList_ofList, dropWhile_dots (head?_joinWith_ne hparts)]
  have hlevels : levels (relativeName n parts).toList = n := by
    rw [levels, hbare, relativeName, String.toList_ofList, List.length_append,
      List.length_replicate]
    omega
  have hreduced : IsReduced ((stack source.toList).tail.drop (n - 1)) :=
    (isReduced_stack source.toList).tail.drop _
  simp only [resolveModule]
  rw [← levels, hlevels, hbare, above_directory hs hnormal, rdrop_dropLast_segments hs hnormal]
  rcases eq_or_ne parts [] with rfl | hne
  · exact lookup_package hreduced
  · rw [if_neg (by simpa using mt (joinWith_eq_nil_iff hparts).mp hne), ← dotsToSlashes,
      dotsToSlashes_joinWith hparts, firstKnown_parts hreduced hparts hne]

/-- **Levels beyond the project stay in the project.** A relative name with `n` dots leads to its
parts from the directory that is left when the last `n - 1` of the directories above the importing
file are taken away. Where there are not so many, it leads to its parts from the project itself, and
finds what there is. -/
theorem resolveModule_levels (known : Known) {source : String} (hs : IsRelative source.toList)
    (hnormal : normal source.toList = source.toList) {parts : List (List Char)}
    (hparts : ∀ s ∈ parts, IsPart s) {dirs : List (List Char)}
    (hdirs : dirs = (segments source.toList).dropLast) (n : ℕ) :
    (n - 1 ≤ dirs.length →
        resolveModule known source (relativeName n parts) =
          moduleAt known (dirs.rdrop (n - 1)) parts) ∧
      (dirs.length < n - 1 →
        resolveModule known source (relativeName n parts) = moduleAt known [] parts) := by
  subst hdirs
  rw [resolveModule_relativeName known hs hnormal hparts]
  refine ⟨fun _ => rfl, fun hlevels => ?_⟩
  have hnone : (segments source.toList).dropLast.rdrop (n - 1) = [] := by
    rw [List.rdrop, Nat.sub_eq_zero_of_le hlevels.le, List.take_zero]
  rw [hnone]

/-- Two files at the top of a project. -/
def topModules : Known := [("app.py", "app"), ("models.py", "models")]

/-- A name that leads two levels out of the project finds a file at its top. -/
theorem resolveModule_topModules :
    IsRelative "app.py".toList ∧ normal "app.py".toList = "app.py".toList ∧
      (∀ s ∈ ["models".toList], IsPart s) ∧ (segments "app.py".toList).dropLast.length < 3 - 1 ∧
      relativeName 3 ["models".toList] = "...models" ∧
      resolveModule topModules "app.py" "...models" = some "models" := by
  have hs : IsRelative "app.py".toList := by simp [IsRelative]
  have hnormal : normal "app.py".toList = "app.py".toList := by decide +kernel
  have hparts : ∀ s ∈ ["models".toList], IsPart s := by
    rw [List.forall_mem_singleton]
    exact ⟨by decide, by decide, by decide⟩
  have hlevels : (segments "app.py".toList).dropLast.length < 3 - 1 := by decide +kernel
  have hname : relativeName 3 ["models".toList] = "...models" := by decide +kernel
  have hfound := (resolveModule_levels topModules hs hnormal hparts rfl 3).2 hlevels
  refine ⟨hs, hnormal, hparts, hlevels, hname, ?_⟩
  rw [← hname, hfound]
  decide +kernel

end Source

end Layering
