import Layering.Proofs.Glob.Containment
import Layering.Proofs.Glob.Derivation

/-!
# Patterns without wildcards

A pattern without wildcards stands for a directory. It is compared with paths as a text, and matches
a path when its segments come first among those of the path (`test_subtree_iff`); slashes at the end
of the path do not matter (`prefix_segments_dropRight_iff`). The same paths are matched by the
pattern with `/**` behind it, whose segments are taken one by one: each segment without wildcards
matches itself only (`matchesName_iff_eq`), and `**` takes the rest (`derives_doubleStar_iff`). So
the two matchers agree on every path, unless the pattern means the root
(`test_compile_eq_subtreeGlob_iff`).

Whether a pattern is safe is judged by its normal form, and the files that it matches lie at or below
that form. But it is compared with them as it is written, so that it matches only if it is written
in normal form (`test_compile_plain_iff`): a pattern with detours, or one that means the root, is safe
and matches no file (`test_plain_iff`).
-/

namespace Layering

open PathText Text

namespace PathText

/-! ## Slashes at the end -/

theorem dropRight_of_getLast?_ne {p : List Char} (h : p.getLast? ≠ some '/') :
    dropRight (· = '/') p = p := by
  rcases List.eq_nil_or_concat p with rfl | ⟨front, c, rfl⟩
  · rfl
  · have hc : c ≠ '/' := by simpa using h
    simp [dropRight, hc]

/-- A directory that is not written with a slash at its end comes before a path whether or not the
path is. -/
theorem prefix_segments_dropRight_iff {dir p : List Char} (hdir : dir.getLast? ≠ some '/') :
    segments dir <+: segments (dropRight (· = '/') p) ↔ segments dir <+: segments p := by
  induction p using List.reverseRecOn with
  | nil => rfl
  | append_singleton p c ih =>
    by_cases hc : c = '/'
    · subst hc
      have hdrop : dropRight (· = '/') (p ++ ['/']) = dropRight (· = '/') p := by simp [dropRight]
      rw [hdrop, ih, segments_append_slash, segments_nil, List.prefix_concat_iff]
      -- the segments of the directory do not end with an empty one of the path
      refine (or_iff_right fun heq => hdir ?_).symm
      have htext : dir = p ++ ['/'] := by
        rw [← ofSegments_segments dir, heq, ← segments_nil, ← segments_append_slash,
          ofSegments_segments]
      rw [htext, List.getLast?_concat]
    · rw [dropRight_of_getLast?_ne (by simpa using hc)]

theorem eq_or_prefix_slash_iff {dir p : List Char} :
    dir = p ∨ dir ++ ['/'] <+: p ↔ segments dir <+: segments p := by
  rw [← isUnder_iff, isUnder, Bool.or_eq_true, beq_iff_eq, List.isPrefixOf_iff_prefix, eq_comm]

end PathText

namespace Glob

/-! ## Trimmed paths -/

theorem compile_of_plain {p : List Char} (h : hasWildcard p = false) (dot : Bool) :
    compile dot p = .subtree (trimmed p) := by
  have htrimmed : hasWildcard (trimmed p) = false := (hasWildcard_trimmed p).trans h
  exact if_neg (ne_true_of_eq_false htrimmed)

theorem compile_of_hasWildcard {p : List Char} (h : hasWildcard p = true) (dot : Bool) :
    compile dot p = .steps ((segments (trimmed p)).map (segmentStep dot)) :=
  if_pos ((hasWildcard_trimmed p).trans h)

theorem test_subtree_iff {dir path : List Char} :
    (Glob.subtree dir).test path = true ↔ segments dir <+: segments (relative path) := isUnder_iff

theorem test_steps_iff {dot : Bool} {ss : List (List Char)} {path : List Char} :
    (Glob.steps (ss.map (segmentStep dot))).test path = true ↔
      Derives dot ss (segments (trimmed path)) := by
  rw [derives_iff_taken, ← accepts_iff]
  rfl

theorem dropHere_of_not_prefix {q : List Char} (h : ¬['.', '/'] <+: q) : dropHere q = q := by
  unfold dropHere
  split
  · rename_i q
    exact absurd ⟨q, rfl⟩ h
  · rfl

/-- A path that does not mean the root keeps its beginning when it is continued. -/
theorem dropHere_append_slash {q : List Char} (h : dropHere q ≠ here) (r : List Char) :
    dropHere (q ++ '/' :: r) = dropHere q ++ '/' :: r := by
  fun_induction dropHere q with
  | case1 q ih => exact ih h
  | case2 q hshape =>
    refine dropHere_of_not_prefix fun hfront => ?_
    cases q with
    | nil => simp at hfront
    | cons c q =>
      cases q with
      | nil =>
        have hc : c = '.' := by simpa [eq_comm] using hfront
        exact h (by rw [hc, here])
      | cons d q =>
        obtain ⟨rfl, rfl⟩ : c = '.' ∧ d = '/' := by simpa [eq_comm] using hfront
        exact hshape q rfl

/-- A path that means the root is passed over when it is continued. -/
theorem dropHere_append_slash_of_eq_here {q : List Char} (h : dropHere q = here) (r : List Char) :
    dropHere (q ++ '/' :: r) = dropHere r := by
  fun_induction dropHere q with
  | case1 q ih => exact ih h
  | case2 q hshape =>
    rw [h]
    rfl

theorem dropHere_suffix (q : List Char) : dropHere q <:+ q := by
  fun_induction dropHere q with
  | case1 q ih => exact ih.trans ⟨['.', '/'], rfl⟩
  | case2 q => exact List.suffix_rfl

/-- A path that ends with no slash of either kind is not written with one at its end. -/
theorem getLast?_relative_ne {p : List Char} (hslash : p.getLast? ≠ some '/')
    (hback : p.getLast? ≠ some '\\') : (relative p).getLast? ≠ some '/' := by
  intro hlast
  obtain ⟨front, hfront⟩ := dropHere_suffix (slashed p)
  have hslashed : (slashed p).getLast? = some '/' := by
    rw [← hfront, List.getLast?_append, ← relative, hlast, Option.some_or]
  rw [slashed, List.getLast?_map] at hslashed
  obtain ⟨c, hc, hchar⟩ := Option.map_eq_some_iff.mp hslashed
  split at hchar
  · rename_i hcback
    exact hback (hcback ▸ hc)
  · exact hslash (hchar ▸ hc)

/-! ## Segments without wildcards -/

theorem parseFrom_of_plain {s : List Char} (h : hasWildcard s = false) {fuel : ℕ}
    (hfuel : s.length ≤ fuel) : Item.parseFrom fuel s = s.map Item.char := by
  induction s generalizing fuel with
  | nil => cases fuel <;> rfl
  | cons c s ih =>
    obtain ⟨fuel, rfl⟩ := Nat.exists_eq_add_of_le' (Nat.le_trans (Nat.le_add_left 1 _) hfuel)
    obtain ⟨hc, hs⟩ : (c ≠ '*' ∧ c ≠ '?' ∧ c ≠ '[') ∧ hasWildcard s = false := by
      simpa [hasWildcard, and_assoc] using h
    rw [List.map_cons, ← ih hs (Nat.le_of_succ_le_succ hfuel)]
    simp [Item.parseFrom, hc]

theorem taken_chars_iff {s name : List Char} :
    Taken (s.map fun c => Step.one (· == c)) name ↔ s = name := by
  induction s generalizing name with
  | nil =>
    constructor
    · rintro ⟨⟩
      rfl
    · rintro rfl
      exact .nil
  | cons c s ih =>
    constructor
    · rintro (- | ⟨hc | -, hrest⟩)
      rw [eq_of_beq hc, List.singleton_append, ih.mp hrest]
    · rintro rfl
      have htakes : (Step.one (· == c)).Takes [c] := .one (beq_self_eq_true c)
      exact .cons htakes (ih.mpr rfl)

/-- A segment without wildcards matches itself only. -/
theorem matchesName_iff_eq {segment name : List Char} (h : hasWildcard segment = false) :
    matchesName segment name = true ↔ segment = name := by
  have hsteps : (Item.parse segment).map Item.step = segment.map fun c => .one (· == c) := by
    rw [Item.parse, parseFrom_of_plain h le_rfl, List.map_map]
    rfl
  rw [matchesName, hsteps, accepts_iff, taken_chars_iff]

theorem hasWildcard_of_mem_segments {p s : List Char} (h : hasWildcard p = false)
    (hs : s ∈ segments p) : hasWildcard s = false := by
  rw [hasWildcard, List.any_eq_false] at h ⊢
  exact fun c hc => h c (mem_of_mem_segments hs hc)

/-- From segments without wildcards and `**`, everything at or below a directory is derived. -/
theorem derives_doubleStar_iff {ss names : List (List Char)}
    (h : ∀ s ∈ ss, hasWildcard s = false) :
    Derives true (ss ++ [doubleStar]) names ↔ ss <+: names := by
  induction ss generalizing names with
  | nil =>
    have hall : Derives true [doubleStar] (names ++ []) := .anyDepth (by simp) .nil
    exact iff_of_true (by simpa using hall) List.nil_prefix
  | cons s ss ih =>
    obtain ⟨hs, hss⟩ := List.forall_mem_cons.mp h
    have hne : s ≠ doubleStar := by
      rintro rfl
      revert hs
      decide
    rw [List.cons_append]
    constructor
    · intro hderives
      cases hderives with
      | segment _ hmatch _ hrest =>
        rw [(matchesName_iff_eq hs).mp hmatch]
        exact List.cons_prefix_cons.mpr ⟨rfl, (ih hss).mp hrest⟩
      | anyDepth => exact absurd rfl hne
    · intro hfront
      obtain ⟨rest, rfl⟩ := hfront
      exact .segment hne ((matchesName_iff_eq hs).mpr rfl) (by simp) ((ih hss).mpr ⟨rest, rfl⟩)

/-! ## The subtree as a pattern with wildcards -/

/-- The pattern for everything at or below a path. -/
def subtreeGlob (p : List Char) : List Char := p ++ '/' :: doubleStar

theorem hasWildcard_subtreeGlob (p : List Char) : hasWildcard (subtreeGlob p) = true := by
  simp [subtreeGlob, hasWildcard, doubleStar]

theorem trimmed_of_getLast?_ne {p : List Char} (h : (relative p).getLast? ≠ some '/') :
    trimmed p = relative p := dropRight_of_getLast?_ne h

theorem relative_subtreeGlob (p : List Char) :
    relative (subtreeGlob p) = dropHere (slashed p ++ '/' :: doubleStar) := by
  rw [relative, subtreeGlob, slashed, List.map_append]
  rfl

theorem segments_trimmed_subtreeGlob {p : List Char} (h : relative p ≠ here) :
    segments (trimmed (subtreeGlob p)) = segments (relative p) ++ [doubleStar] := by
  have hrelative : relative (subtreeGlob p) = relative p ++ '/' :: doubleStar := by
    rw [relative_subtreeGlob, dropHere_append_slash h, relative]
  rw [trimmed_of_getLast?_ne (by simp [hrelative, doubleStar]), hrelative, segments_append_slash,
    segments_of_not_mem (p := doubleStar) (by decide)]

theorem segments_trimmed_subtreeGlob_of_eq_here {p : List Char} (h : relative p = here) :
    segments (trimmed (subtreeGlob p)) = [doubleStar] := by
  have hrelative : relative (subtreeGlob p) = doubleStar := by
    rw [relative_subtreeGlob, dropHere_append_slash_of_eq_here h]
    rfl
  rw [trimmed_of_getLast?_ne (by simp [hrelative, doubleStar]), hrelative]
  exact segments_of_not_mem (by decide)

/-- **A pattern without wildcards matches the same paths as the pattern of its subtree,** provided
that it does not end with a slash of either kind, exactly if it does not mean the root. -/
theorem test_compile_eq_subtreeGlob_iff {p : List Char} (hplain : hasWildcard p = false)
    (hslash : p.getLast? ≠ some '/') (hback : p.getLast? ≠ some '\\') (dot : Bool) :
    (∀ path, (compile dot p).test path = (compile true (subtreeGlob p)).test path) ↔
      relative p ≠ here := by
  have hlast := getLast?_relative_ne hslash hback
  rw [compile_of_plain hplain, compile_of_hasWildcard (hasWildcard_subtreeGlob p),
    trimmed_of_getLast?_ne hlast]
  constructor
  · intro hagree hhere
    -- the root has every path below it, and no path is written below `.`
    have h := hagree ['a']
    rw [hhere, segments_trimmed_subtreeGlob_of_eq_here hhere] at h
    revert h
    decide
  · intro hhere path
    have hplainSegments : ∀ s ∈ segments (relative p), hasWildcard s = false := by
      intro s hs
      refine hasWildcard_of_mem_segments ?_ hs
      rw [relative, hasWildcard_dropHere, hasWildcard_slashed, hplain]
    rw [Bool.eq_iff_iff, test_subtree_iff, test_steps_iff, segments_trimmed_subtreeGlob hhere,
      derives_doubleStar_iff hplainSegments, trimmed, prefix_segments_dropRight_iff hlast]

theorem test_compile_eq_subtreeGlob_doubledSlash :
    hasWildcard ".\\src//ui".toList = false ∧ ".\\src//ui".toList.getLast? ≠ some '/' ∧
      ".\\src//ui".toList.getLast? ≠ some '\\' ∧ relative ".\\src//ui".toList ≠ here ∧
      ∀ path, (compile true ".\\src//ui".toList).test path =
        (compile true (subtreeGlob ".\\src//ui".toList)).test path := by
  have hplain : hasWildcard ".\\src//ui".toList = false := by decide +kernel
  have hslash : ".\\src//ui".toList.getLast? ≠ some '/' := by decide +kernel
  have hback : ".\\src//ui".toList.getLast? ≠ some '\\' := by decide +kernel
  have hroot : relative ".\\src//ui".toList ≠ here := by decide +kernel
  exact ⟨hplain, hslash, hback, hroot,
    (test_compile_eq_subtreeGlob_iff hplain hslash hback true).mpr hroot⟩

/-! ## Normal paths of files -/

/-- The path of a file of the project, in its normal form. -/
structure IsProjectFile (f : List Char) : Prop where
  normal_eq : normal (slashed f) = f
  isRelative : IsRelative f
  ne_here : f ≠ here
  not_climbs : climbs f = false

instance (f : List Char) : Decidable (IsProjectFile f) :=
  decidable_of_iff (normal (slashed f) = f ∧ f.head? ≠ some '/' ∧ f ≠ here ∧ climbs f = false)
    ⟨fun ⟨h₁, h₂, h₃, h₄⟩ => ⟨h₁, h₂, h₃, h₄⟩, fun ⟨h₁, h₂, h₃, h₄⟩ => ⟨h₁, h₂, h₃, h₄⟩⟩

theorem backslash_not_mem_normal {p : List Char} (hp : IsRelative (slashed p)) :
    '\\' ∉ normal (slashed p) := by
  intro hmem
  rcases mem_normal hp hmem with hmem | hdot | hslash
  · exact backslash_not_mem_slashed p hmem
  · exact absurd hdot (by decide)
  · exact absurd hslash (by decide)

theorem isProjectFile_normal {p : List Char} (hp : IsRelative (slashed p))
    (hclimbs : climbs (normal (slashed p)) = false) (hhere : normal (slashed p) ≠ here) :
    IsProjectFile (normal (slashed p)) where
  normal_eq := by
    rw [slashed_of_not_mem (backslash_not_mem_normal hp)]
    exact normal_eq_of_stack_eq (isRelative_normal hp) hp (stack_normal hp)
  isRelative := isRelative_normal hp
  ne_here := hhere
  not_climbs := hclimbs

section ProjectFile

variable {f : List Char}

theorem IsProjectFile.slashed_eq (h : IsProjectFile f) : slashed f = f := by
  have hrelative : IsRelative (slashed f) := fun hslash =>
    h.isRelative (h.normal_eq ▸ head?_normal_eq_slash_iff.mpr hslash)
  have hback := backslash_not_mem_normal hrelative
  rw [h.normal_eq] at hback
  exact slashed_of_not_mem hback

/-- The normal path of a file consists of names. -/
theorem IsProjectFile.isName (h : IsProjectFile f) : ∀ s ∈ segments f, IsName s := by
  have hnormal : normal f = f := by
    have := h.normal_eq
    rwa [h.slashed_eq] at this
  have hstack : stack f ≠ [] := by
    intro hnil
    apply h.ne_here
    rw [← hnormal, normal_of_isRelative h.isRelative, if_pos hnil]
  have hup : up ∉ stack f := by
    rw [up_mem_stack_iff, ← climbs_normal_iff h.isRelative, hnormal, h.not_climbs]
    exact Bool.false_ne_true
  obtain ⟨names, k, hst, hnames⟩ := isReduced_stack f
  intro s hs
  rw [← hnormal, segments_normal h.isRelative, if_neg hstack, List.mem_reverse] at hs
  have hne : s ≠ up := fun hsup => hup (hsup ▸ hs)
  rw [hst, List.mem_append] at hs
  rcases hs with hs | hs
  · exact hnames s hs
  · exact absurd (List.eq_of_mem_replicate hs) hne

theorem not_prefix_here_of_isName (h : ∀ s ∈ segments f, IsName s) : ¬['.', '/'] <+: f := by
  rintro ⟨rest, rfl⟩
  have hhere : here ∈ segments (here ++ '/' :: rest) := by
    rw [segments_append_slash]
    exact List.mem_append_left _ List.mem_cons_self
  exact (h here hhere).ne_here rfl

/-- A path of names is seen from the root as it is. -/
theorem relative_of_isName (hback : '\\' ∉ f) (h : ∀ s ∈ segments f, IsName s) : relative f = f := by
  rw [relative, slashed_of_not_mem hback, dropHere_of_not_prefix (not_prefix_here_of_isName h)]

theorem IsProjectFile.not_prefix_here (h : IsProjectFile f) : ¬['.', '/'] <+: f :=
  not_prefix_here_of_isName h.isName

theorem IsProjectFile.relative_eq (h : IsProjectFile f) : relative f = f :=
  relative_of_isName (h.slashed_eq ▸ backslash_not_mem_slashed f) h.isName

end ProjectFile

/-! ## What a pattern names and what it matches -/

theorem stack_dropHere (q : List Char) : stack (dropHere q) = stack q := by
  fun_induction dropHere q with
  | case1 q ih =>
    have hcut : '.' :: '/' :: q = here ++ '/' :: q := rfl
    rw [ih, hcut, stack_append_slash]
    rfl
  | case2 q => rfl

/-- Trimming a path does not change where it leads. -/
theorem stack_trimmed (p : List Char) : stack (trimmed p) = stack (slashed p) := by
  rw [trimmed, stack_dropRight, relative, stack_dropHere]

/-- A path that consists of names once it is trimmed is then in its normal form. -/
theorem trimmed_eq_normal {p : List Char} (hp : IsRelative (slashed p))
    (h : ∀ s ∈ segments (trimmed p), IsName s) : trimmed p = normal (slashed p) := by
  have hstack : stack (slashed p) = (segments (trimmed p)).reverse := by
    rw [← stack_trimmed, stack, foldl_pushSegment_names h, List.append_nil]
  rw [normal_of_isRelative hp, hstack, if_neg (by simpa using segments_ne_nil _),
    List.reverse_reverse, ofSegments_segments]

/-- A pattern without wildcards matches the files at or below its normal form if, once it is trimmed,
it is in normal form, and else no file. -/
theorem test_compile_plain_iff {p f : List Char} (hplain : hasWildcard p = false)
    (hp : IsRelative (slashed p)) (hf : IsProjectFile f) (dot : Bool) :
    (compile dot p).test f = true ↔ trimmed p = normal (slashed p) ∧
      (normal (slashed p) = f ∨ normal (slashed p) ++ ['/'] <+: f) := by
  rw [compile_of_plain hplain, test_subtree_iff, hf.relative_eq, eq_or_prefix_slash_iff]
  constructor
  · intro hfront
    -- what comes first in a path of names consists of names
    have heq := trimmed_eq_normal hp fun s hs => hf.isName s (hfront.subset hs)
    exact ⟨heq, heq ▸ hfront⟩
  · rintro ⟨heq, hfront⟩
    rwa [heq]

/-- **A safe pattern without wildcards matches the files at or below the directory it names,
provided that it is written as the normal form of that directory,** up to `./` at its start and
slashes at its end; if it is not, or if it names the root, it matches no file. -/
theorem test_plain_iff {purpose s : String} (hplain : hasWildcard s.toList = false)
    (hsafe : Glob.validate purpose (.str s) = .ok s) (dot : Bool) :
    (∀ f, IsProjectFile f → ((compile dot s.toList).test f = true ↔
      trimmed s.toList = normal (slashed s.toList) ∧
        (normal (slashed s.toList) = f ∨ normal (slashed s.toList) ++ ['/'] <+: f))) ∧
    ((∃ f, IsProjectFile f ∧ (compile dot s.toList).test f = true) ↔
      trimmed s.toList = normal (slashed s.toList) ∧ normal (slashed s.toList) ≠ here) := by
  have hfault := (validate_eq_ok_iff_fault?.mp hsafe).2
  obtain ⟨-, -, hrelative, -, hclimbs⟩ := fault?_eq_none_iff.mp hfault
  refine ⟨fun f hf => test_compile_plain_iff hplain hrelative hf dot, ?_, ?_⟩
  · rintro ⟨f, hf, htest⟩
    obtain ⟨heq, hbelow⟩ := (test_compile_plain_iff hplain hrelative hf dot).mp htest
    refine ⟨heq, fun hhere => ?_⟩
    rw [hhere] at hbelow
    rcases hbelow with rfl | hbelow
    · exact hf.ne_here rfl
    · exact hf.not_prefix_here hbelow
  · -- the directory that the pattern names has the path of a file
    rintro ⟨heq, hhere⟩
    have hf := isProjectFile_normal hrelative hclimbs hhere
    exact ⟨_, hf, (test_compile_plain_iff hplain hrelative hf dot).mpr ⟨heq, .inl rfl⟩⟩

theorem test_plain_iff_trailingSlash :
    hasWildcard ".\\src/ui/".toList = false ∧
      Glob.validate "layer pattern" (.str ".\\src/ui/") = .ok ".\\src/ui/" ∧
      IsProjectFile "src/ui/button.ts".toList ∧
      (compile true ".\\src/ui/".toList).test "src/ui/button.ts".toList = true := by
  have hplain : hasWildcard ".\\src/ui/".toList = false := by decide +kernel
  have hsafe : Glob.validate "layer pattern" (.str ".\\src/ui/") = .ok ".\\src/ui/" :=
    validate_eq_ok_iff_fault?.mpr ⟨rfl, by decide +kernel⟩
  have hf : IsProjectFile "src/ui/button.ts".toList := by decide +kernel
  exact ⟨hplain, hsafe, hf, ((test_plain_iff hplain hsafe true).1 _ hf).mpr
    ⟨by decide +kernel, .inr (by decide +kernel)⟩⟩

/-- A pattern that names the directory of a file by a detour is safe, and does not match the file. -/
theorem test_plain_eq_false_detour :
    hasWildcard "src/./ui".toList = false ∧
      Glob.validate "layer pattern" (.str "src/./ui") = .ok "src/./ui" ∧
      IsProjectFile "src/ui/button.ts".toList ∧
      normal (slashed "src/./ui".toList) ++ ['/'] <+: "src/ui/button.ts".toList ∧
      (compile true "src/./ui".toList).test "src/ui/button.ts".toList = false :=
  ⟨by decide +kernel, validate_eq_ok_iff_fault?.mpr ⟨rfl, by decide +kernel⟩, by decide +kernel,
    by decide +kernel, by decide +kernel⟩

end Glob

end Layering
