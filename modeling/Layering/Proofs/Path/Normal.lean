import Layering.Path.PathText
import Mathlib.Data.List.DropRight
import Mathlib.Data.List.Infix

/-!
# Normal paths

A path is determined by its segments (`ofSegments_segments`), and lies below a directory when the
segments of the directory come first among its own (`isUnder_iff`). A relative path is walked with a
stack of segments (`stack`). The stack holds names, and below them the steps upwards that nothing was
left to answer (`isReduced_stack`), so walking its segments again changes nothing
(`foldl_reverse_of_isReduced`) and the normal form of a path has the stack of the path
(`stack_normal`). Taking the directory drops the top of the stack, and joining walks on from it.
Hence a path leads to the same place from the directory of a file as from the directory of the
file's normal path (`normal_join_directory_normal`).
-/

namespace Layering.PathText

open Text

/-! ## Segments -/

theorem joinWith_eq_intercalate (sep : List Char) (ss : List (List Char)) :
    joinWith sep ss = sep.intercalate ss := by
  fun_induction joinWith sep ss with
  | case1 => rfl
  | case2 s => simp
  | case3 s ss hne ih =>
    obtain ⟨t, ts, rfl⟩ := List.exists_cons_of_ne_nil (l := ss) (by rintro rfl; exact hne rfl)
    rw [ih, List.intercalate_cons_cons]

theorem ofSegments_segments (p : List Char) : ofSegments (segments p) = p := by
  rw [ofSegments, joinWith_eq_intercalate]
  exact List.intercalate_splitOn '/'

theorem segments_ofSegments {ss : List (List Char)} (hne : ss ≠ []) (h : ∀ s ∈ ss, '/' ∉ s) :
    segments (ofSegments ss) = ss := by
  rw [ofSegments, joinWith_eq_intercalate]
  exact List.splitOn_intercalate '/' h hne

theorem segments_ne_nil (p : List Char) : segments p ≠ [] := List.splitOn_ne_nil '/' p

theorem segments_nil : segments [] = [[]] := List.splitOn_nil '/'

theorem segments_append_slash (p q : List Char) :
    segments (p ++ '/' :: q) = segments p ++ segments q := List.splitOn_append_cons_self p q

theorem segments_of_not_mem {p : List Char} (h : '/' ∉ p) : segments p = [p] :=
  List.splitOn_eq_singleton h

theorem slash_not_mem_of_mem_segments {p s : List Char} (h : s ∈ segments p) : '/' ∉ s := by
  induction p generalizing s with
  | nil =>
    rw [segments_nil, List.mem_singleton] at h
    simp [h]
  | cons c p ih =>
    rw [segments, List.splitOn_cons_eq_if_modifyHead] at h
    split at h
    · rcases List.mem_cons.mp h with rfl | h
      · simp
      · exact ih h
    · -- the character stands in front of the first segment of the rest
      rename_i hc
      obtain ⟨first, rest, hp⟩ := List.exists_cons_of_ne_nil (segments_ne_nil p)
      rw [hp] at ih
      rw [← segments, hp, List.modifyHead_cons] at h
      rcases List.mem_cons.mp h with rfl | h
      · have hfirst : '/' ∉ first := ih List.mem_cons_self
        simp only [List.mem_cons, not_or]
        exact ⟨fun hslash => hc (beq_iff_eq.mpr hslash.symm), hfirst⟩
      · exact ih (List.mem_cons_of_mem _ h)

theorem ofSegments_singleton (s : List Char) : ofSegments [s] = s := rfl

theorem ofSegments_append {ss ts : List (List Char)} (hs : ss ≠ []) (ht : ts ≠ []) :
    ofSegments (ss ++ ts) = ofSegments ss ++ '/' :: ofSegments ts := by
  induction ss with
  | nil => exact absurd rfl hs
  | cons s ss ih =>
    rcases eq_or_ne ss [] with rfl | hne
    · obtain ⟨t, ts, rfl⟩ := List.exists_cons_of_ne_nil ht
      simp [ofSegments, joinWith]
    · obtain ⟨s', ss', rfl⟩ := List.exists_cons_of_ne_nil hne
      have := ih hne
      simp only [ofSegments, List.cons_append, joinWith] at this ⊢
      rw [this]
      simp

/-- A path lies below a directory, or is the directory, when the segments of the directory come first
among its own. -/
theorem isUnder_iff {dir p : List Char} : isUnder dir p = true ↔ segments dir <+: segments p := by
  simp only [isUnder, Bool.or_eq_true, beq_iff_eq, List.isPrefixOf_iff_prefix]
  constructor
  · rintro (rfl | ⟨r, rfl⟩)
    · exact List.prefix_rfl
    · rw [List.append_assoc, List.singleton_append, segments_append_slash]
      exact List.prefix_append _ _
  · rintro ⟨rest, hrest⟩
    rcases eq_or_ne rest [] with rfl | hne
    · left
      rw [← ofSegments_segments p, ← hrest, List.append_nil, ofSegments_segments]
    · right
      refine ⟨ofSegments rest, ?_⟩
      rw [← ofSegments_segments p, ← hrest, ofSegments_append (segments_ne_nil dir) hne,
        ofSegments_segments]
      simp

/-- A path lies strictly below a directory when the segments of the directory come first among its
own, with at least one more behind them. -/
theorem prefix_slash_iff {dir p : List Char} :
    dir ++ ['/'] <+: p ↔ segments dir <+: (segments p).dropLast := by
  constructor
  · rintro ⟨r, rfl⟩
    rw [List.append_assoc, List.singleton_append, segments_append_slash,
      List.dropLast_append_of_ne_nil (segments_ne_nil r)]
    exact List.prefix_append _ _
  · rintro ⟨rest, hrest⟩
    have hp := List.dropLast_append_getLast (segments_ne_nil p)
    rw [← hrest, List.append_assoc] at hp
    refine ⟨ofSegments (rest ++ [(segments p).getLast (segments_ne_nil p)]), ?_⟩
    calc dir ++ ['/'] ++ ofSegments (rest ++ [(segments p).getLast (segments_ne_nil p)])
        = ofSegments (segments dir ++ (rest ++ [(segments p).getLast (segments_ne_nil p)])) := by
          rw [ofSegments_append (segments_ne_nil dir) (by simp), ofSegments_segments]
          simp
      _ = p := by rw [hp, ofSegments_segments]

/-! ## Names -/

/-- A segment that leads one step downwards. -/
structure IsName (s : List Char) : Prop where
  ne_nil : s ≠ []
  ne_here : s ≠ here
  ne_up : s ≠ up
  slash_not_mem : '/' ∉ s

instance (s : List Char) : Decidable (IsName s) :=
  decidable_of_iff (s ≠ [] ∧ s ≠ here ∧ s ≠ up ∧ '/' ∉ s)
    ⟨fun ⟨h₁, h₂, h₃, h₄⟩ => ⟨h₁, h₂, h₃, h₄⟩, fun ⟨h₁, h₂, h₃, h₄⟩ => ⟨h₁, h₂, h₃, h₄⟩⟩

theorem pushSegment_of_isName {s : List Char} (h : IsName s) (rooted : Bool)
    (stack : List (List Char)) : pushSegment rooted stack s = s :: stack := by
  simp [pushSegment, h.ne_nil, h.ne_here, h.ne_up]

theorem foldl_pushSegment_names {ss : List (List Char)} (h : ∀ s ∈ ss, IsName s) (rooted : Bool)
    (stack : List (List Char)) : ss.foldl (pushSegment rooted) stack = ss.reverse ++ stack := by
  induction ss generalizing stack with
  | nil => rfl
  | cons s ss ih =>
    rw [List.foldl_cons, pushSegment_of_isName (h s List.mem_cons_self),
      ih fun t ht => h t (List.mem_cons_of_mem _ ht)]
    simp

theorem pushSegment_nil (rooted : Bool) (stack : List (List Char)) :
    pushSegment rooted stack [] = stack := by simp [pushSegment]

theorem pushSegment_here (rooted : Bool) (stack : List (List Char)) :
    pushSegment rooted stack here = stack := by simp [pushSegment]

theorem pushSegment_up_cons (rooted : Bool) (top : List Char) (below : List (List Char)) :
    pushSegment rooted (top :: below) up = if top = up then up :: top :: below else below := by
  simp [pushSegment, up, here]

/-! ## The stack of a path -/

/-- The segments that are left when a relative path has been walked, the last one first. -/
def stack (p : List Char) : List (List Char) := (segments p).foldl (pushSegment false) []

/-- Names, and below them steps upwards. -/
def IsReduced (st : List (List Char)) : Prop :=
  ∃ names k, st = names ++ List.replicate k up ∧ ∀ s ∈ names, IsName s

theorem IsReduced.pushSegment {st : List (List Char)} {s : List Char} (h : IsReduced st)
    (hs : '/' ∉ s) : IsReduced (pushSegment false st s) := by
  rcases eq_or_ne s [] with rfl | hnil
  · rwa [pushSegment_nil]
  rcases eq_or_ne s here with rfl | hhere
  · rwa [pushSegment_here]
  obtain ⟨names, k, rfl, hnames⟩ := h
  rcases eq_or_ne s up with rfl | hup
  · -- a step upwards takes a name away, and stays when there is none
    cases names with
    | nil =>
      refine ⟨[], k + 1, ?_, by simp⟩
      cases k with
      | zero => rfl
      | succ k => simp [List.replicate_succ, pushSegment_up_cons]
    | cons n names =>
      have hn : n ≠ up := (hnames n List.mem_cons_self).ne_up
      refine ⟨names, k, ?_, fun m hm => hnames m (List.mem_cons_of_mem _ hm)⟩
      rw [List.cons_append, pushSegment_up_cons, if_neg hn]
  · have hname : IsName s := ⟨hnil, hhere, hup, hs⟩
    rw [pushSegment_of_isName hname]
    exact ⟨s :: names, k, rfl, List.forall_mem_cons.mpr ⟨hname, hnames⟩⟩

theorem isReduced_stack (p : List Char) : IsReduced (stack p) := by
  have h : ∀ ss : List (List Char), (∀ s ∈ ss, '/' ∉ s) → ∀ st, IsReduced st →
      IsReduced (ss.foldl (pushSegment false) st) := by
    intro ss hss
    induction ss with
    | nil => exact fun st hst => hst
    | cons s ss ih =>
      intro st hst
      obtain ⟨hs, hss⟩ := List.forall_mem_cons.mp hss
      exact ih hss _ (hst.pushSegment hs)
  exact h _ (fun s hs => slash_not_mem_of_mem_segments hs) [] ⟨[], 0, rfl, by simp⟩

theorem IsReduced.tail {st : List (List Char)} (h : IsReduced st) : IsReduced st.tail := by
  obtain ⟨names, k, rfl, hnames⟩ := h
  cases names with
  | nil => exact ⟨[], k - 1, by simp, by simp⟩
  | cons n names => exact ⟨names, k, rfl, fun m hm => hnames m (List.mem_cons_of_mem _ hm)⟩

theorem IsReduced.drop {st : List (List Char)} (h : IsReduced st) (n : ℕ) :
    IsReduced (st.drop n) := by
  induction n with
  | zero => exact h
  | succ n ih =>
    rw [← List.tail_drop]
    exact ih.tail

theorem foldl_pushSegment_replicate_up (k : ℕ) :
    (List.replicate k up).foldl (pushSegment false) [] = List.replicate k up := by
  induction k with
  | zero => rfl
  | succ k ih =>
    rw [List.replicate_succ', List.foldl_append, ih]
    cases k with
    | zero => rfl
    | succ k =>
      rw [List.replicate_succ, List.foldl_cons, List.foldl_nil, pushSegment_up_cons, if_pos rfl]
      rw [List.cons_append, ← List.replicate_succ', ← List.replicate_succ]

/-- Walking the segments that are left once more changes nothing. -/
theorem foldl_reverse_of_isReduced {st : List (List Char)} (h : IsReduced st) :
    st.reverse.foldl (pushSegment false) [] = st := by
  obtain ⟨names, k, rfl, hnames⟩ := h
  rw [List.reverse_append, List.reverse_replicate, List.foldl_append,
    foldl_pushSegment_replicate_up,
    foldl_pushSegment_names fun s hs => hnames s (List.mem_reverse.mp hs), List.reverse_reverse]

theorem IsReduced.slash_not_mem {st : List (List Char)} (h : IsReduced st) :
    ∀ s ∈ st, '/' ∉ s ∧ s ≠ [] := by
  obtain ⟨names, k, rfl, hnames⟩ := h
  intro s hs
  rcases List.mem_append.mp hs with hs | hs
  · exact ⟨(hnames s hs).slash_not_mem, (hnames s hs).ne_nil⟩
  · rw [List.eq_of_mem_replicate hs]
    decide

/-! ## Normal forms of relative paths -/

/-- A path that does not start at the root. -/
def IsRelative (p : List Char) : Prop := p.head? ≠ some '/'

theorem rootSlashes_of_isRelative {p : List Char} (h : IsRelative p) : rootSlashes p = 0 := by
  cases p with
  | nil => rfl
  | cons c p =>
    have hc : c ≠ '/' := by simpa [IsRelative] using h
    simp [rootSlashes, hc]

theorem ofSegments_ne_nil {ss : List (List Char)} (hne : ss ≠ []) (h : ∀ s ∈ ss, s ≠ []) :
    ofSegments ss ≠ [] := by
  obtain ⟨s, ss, rfl⟩ := List.exists_cons_of_ne_nil hne
  have hs : s ≠ [] := h s List.mem_cons_self
  cases ss with
  | nil => exact hs
  | cons t ss => simp [ofSegments, joinWith, hs]

theorem normal_of_isRelative {p : List Char} (h : IsRelative p) :
    normal p = if stack p = [] then here else ofSegments (stack p).reverse := by
  have hroot := rootSlashes_of_isRelative h
  have hsegments : normalSegments p = (stack p).reverse := by simp [normalSegments, stack, hroot]
  simp only [normal, hroot, hsegments, List.replicate_zero, List.nil_append]
  by_cases hst : stack p = []
  · simp [hst, ofSegments, joinWith]
  · have hne : ofSegments (stack p).reverse ≠ [] := by
      refine ofSegments_ne_nil (by simpa using hst) fun s hs => ?_
      exact ((isReduced_stack p).slash_not_mem s (List.mem_reverse.mp hs)).2
    simp [hst, hne]

theorem segments_normal {p : List Char} (h : IsRelative p) :
    segments (normal p) = if stack p = [] then [here] else (stack p).reverse := by
  rw [normal_of_isRelative h]
  split
  · exact segments_of_not_mem (by decide)
  · rename_i hst
    refine segments_ofSegments (by simpa using hst) fun s hs => ?_
    exact ((isReduced_stack p).slash_not_mem s (List.mem_reverse.mp hs)).1

theorem stack_normal {p : List Char} (h : IsRelative p) : stack (normal p) = stack p := by
  rw [stack, segments_normal h]
  split
  · rename_i hst
    rw [hst]
    rfl
  · exact foldl_reverse_of_isReduced (isReduced_stack p)

theorem normal_eq_of_stack_eq {p q : List Char} (hp : IsRelative p) (hq : IsRelative q)
    (h : stack p = stack q) : normal p = normal q := by
  rw [normal_of_isRelative hp, normal_of_isRelative hq, h]

theorem isRelative_ofSegments {ss : List (List Char)} (h : ∀ s ∈ ss, '/' ∉ s ∧ s ≠ []) :
    IsRelative (ofSegments ss) := by
  cases ss with
  | nil => simp [IsRelative, ofSegments, joinWith]
  | cons s ss =>
    obtain ⟨hslash, hs⟩ := h s List.mem_cons_self
    obtain ⟨c, s, rfl⟩ := List.exists_cons_of_ne_nil hs
    have hc : c ≠ '/' := fun hc => hslash (by simp [hc])
    cases ss <;> simp [IsRelative, ofSegments, joinWith, hc]

theorem isRelative_normal {p : List Char} (h : IsRelative p) : IsRelative (normal p) := by
  rw [normal_of_isRelative h]
  split
  · simp [IsRelative, here]
  · refine isRelative_ofSegments fun s hs => ?_
    exact (isReduced_stack p).slash_not_mem s (List.mem_reverse.mp hs)

/-! ## Directories -/

theorem exists_eq_append_slash {p : List Char} (h : '/' ∈ p) :
    ∃ front last, p = front ++ '/' :: last ∧ '/' ∉ last := by
  obtain ⟨back, rest, hp, hback⟩ := List.eq_append_cons_of_mem (List.mem_reverse.mpr h)
  refine ⟨rest.reverse, back.reverse, ?_, by simpa using hback⟩
  rw [← List.reverse_reverse p, hp]
  simp

theorem directory_of_not_mem {p : List Char} (h : '/' ∉ p) : directory p = [] := by
  have hdrop : p.reverse.dropWhile (· ≠ '/') = [] := by
    rw [List.dropWhile_eq_nil_iff]
    intro c hc
    simpa using fun hslash : c = '/' => h (hslash ▸ List.mem_reverse.mp hc)
  rw [directory, hdrop]
  rfl

theorem directory_append_slash {front last : List Char} (hfront : IsRelative front)
    (hne : front ≠ []) (hlast : '/' ∉ last) :
    directory (front ++ '/' :: last) = dropRight (· = '/') front := by
  have hdrop : (front ++ '/' :: last).reverse.dropWhile (· ≠ '/') = '/' :: front.reverse := by
    rw [List.reverse_append, List.reverse_cons, List.append_assoc,
      List.dropWhile_append_of_pos]
    · simp
    · intro c hc
      simpa using fun hslash : c = '/' => hlast (hslash ▸ List.mem_reverse.mp hc)
  have hbare : dropRight (· = '/') front ≠ [] := by
    intro hnil
    rw [dropRight, List.reverse_eq_nil_iff, List.dropWhile_eq_nil_iff] at hnil
    obtain ⟨c, front, rfl⟩ := List.exists_cons_of_ne_nil hne
    exact hfront (by simpa using hnil c (by simp))
  have hhead : dropRight (· = '/') ('/' :: front.reverse).reverse = dropRight (· = '/') front := by
    simp [dropRight]
  rw [directory, hdrop, hhead]
  simp [hbare]

theorem stack_append_slash (p q : List Char) :
    stack (p ++ '/' :: q) = (segments q).foldl (pushSegment false) (stack p) := by
  rw [stack, segments_append_slash, List.foldl_append, stack]

theorem stack_append_singleton_slash (p : List Char) : stack (p ++ ['/']) = stack p := by
  rw [stack_append_slash, segments_nil, List.foldl_cons, List.foldl_nil, pushSegment_nil]

theorem stack_dropRight (p : List Char) : stack (dropRight (· = '/') p) = stack p := by
  induction p using List.reverseRecOn with
  | nil => rfl
  | append_singleton p c ih =>
    by_cases hc : c = '/'
    · rw [hc, stack_append_singleton_slash, ← ih]
      simp [dropRight]
    · simp [dropRight, hc]

theorem isRelative_dropRight {p : List Char} (h : IsRelative p) :
    IsRelative (dropRight (· = '/') p) := by
  obtain ⟨rest, hrest⟩ := List.rdropWhile_prefix (· = '/') p
  cases hp : dropRight (· = '/') p with
  | nil => simp [IsRelative]
  | cons c d =>
    change dropRight (· = '/') p ++ rest = p at hrest
    rw [hp] at hrest
    rw [← hrest] at h
    simpa [IsRelative] using h

/-- The directory of a relative path is relative, and is reached by the segments before the last. -/
theorem directory_spec {p : List Char} (h : IsRelative p) :
    IsRelative (directory p) ∧
      stack (directory p) = (segments p).dropLast.foldl (pushSegment false) [] := by
  by_cases hslash : '/' ∈ p
  · obtain ⟨front, last, rfl, hlast⟩ := exists_eq_append_slash hslash
    have hne : front ≠ [] := by
      rintro rfl
      exact h rfl
    have hfront : IsRelative front := by
      obtain ⟨c, front, rfl⟩ := List.exists_cons_of_ne_nil hne
      simpa [IsRelative] using h
    rw [directory_append_slash hfront hne hlast, segments_append_slash, segments_of_not_mem hlast,
      List.dropLast_concat]
    exact ⟨isRelative_dropRight hfront, stack_dropRight front⟩
  · rw [directory_of_not_mem hslash, segments_of_not_mem hslash]
    exact ⟨by simp [IsRelative], rfl⟩

/-- Joining relative paths walks the second from where the first leads. -/
theorem join_spec {a b : List Char} (ha : IsRelative a) (hb : IsRelative b) :
    IsRelative (join a b) ∧ stack (join a b) = (segments b).foldl (pushSegment false) (stack a) := by
  have hb' : b.head? ≠ some '/' := hb
  rw [join, if_neg hb']
  rcases List.eq_nil_or_concat a with rfl | ⟨front, c, rfl⟩
  · simpa using ⟨hb, rfl⟩
  · rw [List.concat_eq_append] at ha ⊢
    have hhead : ∀ r, (front ++ [c] ++ r).head? = (front ++ [c]).head? := by
      intro r
      cases front <;> rfl
    split
    · rename_i hc
      have hc : c = '/' := by simpa using hc
      subst hc
      refine ⟨by rw [IsRelative, hhead]; exact ha, ?_⟩
      rw [stack_append_singleton_slash, List.append_assoc, List.singleton_append,
        stack_append_slash]
    · exact ⟨by rw [IsRelative, hhead]; exact ha, stack_append_slash _ b⟩

/-- The directory of a normal path. -/
theorem directory_ofSegments_concat {ss : List (List Char)} {s : List Char}
    (hss : ∀ t ∈ ss, '/' ∉ t ∧ t ≠ []) (hs : '/' ∉ s) :
    directory (ofSegments (ss ++ [s])) = ofSegments ss := by
  rcases eq_or_ne ss [] with rfl | hne
  · exact directory_of_not_mem hs
  · rw [ofSegments_append hne (by simp), ofSegments_singleton,
      directory_append_slash (isRelative_ofSegments hss)
        (ofSegments_ne_nil hne fun t ht => (hss t ht).2) hs]
    -- the last segment is not empty, so that no slash stands at the end
    obtain ⟨front, last, rfl⟩ : ∃ front last, ss = front ++ [last] :=
      ⟨_, _, (List.dropLast_append_getLast hne).symm⟩
    obtain ⟨hlast, hnil⟩ := hss last (by simp)
    obtain ⟨text, c, rfl⟩ : ∃ text c, last = text ++ [c] :=
      ⟨_, _, (List.dropLast_append_getLast hnil).symm⟩
    have hc : c ≠ '/' := by
      rintro rfl
      simp at hlast
    obtain ⟨text', htext⟩ : ∃ text', ofSegments (front ++ [text ++ [c]]) = text' ++ [c] := by
      rcases eq_or_ne front [] with rfl | hfront
      · exact ⟨text, rfl⟩
      · rw [ofSegments_append hfront (by simp)]
        exact ⟨ofSegments front ++ '/' :: text, by simp [ofSegments_singleton]⟩
    rw [htext]
    simp [dropRight, hc]

theorem directory_normal {p : List Char} (h : IsRelative p) :
    directory (normal p) = ofSegments (stack p).tail.reverse := by
  rw [normal_of_isRelative h]
  cases hst : stack p with
  | nil => rfl
  | cons s st =>
    have hall := (isReduced_stack p).slash_not_mem
    rw [hst] at hall
    rw [if_neg (by simp), List.reverse_cons, List.tail_cons]
    refine directory_ofSegments_concat (fun t ht => ?_) (hall s List.mem_cons_self).1
    exact hall t (List.mem_cons_of_mem _ (List.mem_reverse.mp ht))

theorem stack_ofSegments_reverse {st : List (List Char)} (h : IsReduced st) :
    stack (ofSegments st.reverse) = st := by
  rcases eq_or_ne st [] with rfl | hne
  · rfl
  · rw [stack, segments_ofSegments (by simpa using hne) fun s hs =>
      (h.slash_not_mem s (List.mem_reverse.mp hs)).1]
    exact foldl_reverse_of_isReduced h

theorem isUnder_ofSegments_iff {dir : List Char} {ss : List (List Char)}
    (hdir : ∀ s ∈ segments dir, s ≠ []) (hss : ∀ s ∈ ss, '/' ∉ s) :
    isUnder dir (ofSegments ss) = true ↔ segments dir <+: ss := by
  rw [isUnder_iff]
  rcases eq_or_ne ss [] with rfl | hne
  · refine iff_of_false (fun h => ?_) fun h => segments_ne_nil dir (List.prefix_nil.mp h)
    obtain ⟨s, rest, hs⟩ := List.exists_cons_of_ne_nil (segments_ne_nil dir)
    have hnil : s ∈ segments (ofSegments []) := h.subset (by simp [hs])
    exact hdir s (by simp [hs]) (List.mem_singleton.mp hnil)
  · rw [segments_ofSegments hne hss]

theorem isUnder_normal_iff {dir p : List Char} (hp : IsRelative p)
    (hdir : ∀ s ∈ segments dir, s ≠ here) :
    isUnder dir (normal p) = true ↔ segments dir <+: (stack p).reverse := by
  rw [isUnder_iff, segments_normal hp]
  split
  · rename_i hst
    rw [hst]
    refine iff_of_false (fun h => ?_) fun h => segments_ne_nil dir (List.prefix_nil.mp h)
    obtain ⟨s, rest, hs⟩ := List.exists_cons_of_ne_nil (segments_ne_nil dir)
    have hhere : s ∈ [here] := h.subset (by simp [hs])
    exact hdir s (by simp [hs]) (List.mem_singleton.mp hhere)
  · rfl

/-! ## Characters of paths -/

theorem slashed_of_not_mem {p : List Char} (h : '\\' ∉ p) : slashed p = p := by
  refine (List.map_congr_left fun c hc => ?_).trans (List.map_id p)
  have hne : c ≠ '\\' := fun hback => h (hback ▸ hc)
  simp [hne]

theorem backslash_not_mem_slashed (p : List Char) : '\\' ∉ slashed p := by
  intro hmem
  obtain ⟨c, -, hc⟩ := List.mem_map.mp hmem
  split at hc
  · exact absurd hc (by decide)
  · rename_i hne
    exact hne hc

theorem mem_ofSegments {ss : List (List Char)} {c : Char} (h : c ∈ ofSegments ss) :
    c = '/' ∨ ∃ s ∈ ss, c ∈ s := by
  induction ss with
  | nil => cases h
  | cons s ss ih =>
    rcases eq_or_ne ss [] with rfl | hne
    · exact .inr ⟨s, List.mem_cons_self, h⟩
    · rw [← List.singleton_append, ofSegments_append (by simp) hne, ofSegments_singleton,
        List.mem_append, List.mem_cons] at h
      rcases h with h | rfl | h
      · exact .inr ⟨s, List.mem_cons_self, h⟩
      · exact .inl rfl
      · rcases ih h with h | ⟨t, ht, hc⟩
        · exact .inl h
        · exact .inr ⟨t, List.mem_cons_of_mem _ ht, hc⟩

theorem mem_of_mem_segments {p s : List Char} {c : Char} (hs : s ∈ segments p) (hc : c ∈ s) :
    c ∈ p := by
  obtain ⟨front, back, hp⟩ := List.append_of_mem hs
  rw [← ofSegments_segments p, hp]
  rcases eq_or_ne front [] with rfl | hfront <;> rcases eq_or_ne back [] with rfl | hback
  · exact hc
  · rw [List.nil_append, ← List.singleton_append, ofSegments_append (by simp) hback]
    exact List.mem_append_left _ hc
  · rw [ofSegments_append hfront (by simp)]
    exact List.mem_append_right _ (List.mem_cons_of_mem _ hc)
  · rw [ofSegments_append hfront (by simp), ← List.singleton_append (x := s),
      ofSegments_append (by simp) hback]
    exact List.mem_append_right _ (List.mem_cons_of_mem _ (List.mem_append_left _ hc))

theorem mem_pushSegment {st : List (List Char)} {s t : List Char}
    (h : t ∈ pushSegment false st s) : t ∈ st ∨ t = s ∨ t = up := by
  rcases eq_or_ne s [] with rfl | hnil
  · exact .inl (pushSegment_nil false st ▸ h)
  rcases eq_or_ne s here with rfl | hhere
  · exact .inl (pushSegment_here false st ▸ h)
  rcases eq_or_ne s up with rfl | hup
  · cases st with
    | nil => exact .inr (.inl (List.mem_singleton.mp h))
    | cons top below =>
      rw [pushSegment_up_cons] at h
      split at h
      · exact (List.mem_cons.mp h).symm.imp_right .inl
      · exact .inl (List.mem_cons_of_mem _ h)
  · have hpush : pushSegment false st s = s :: st := by simp [pushSegment, hnil, hhere, hup]
    exact (List.mem_cons.mp (hpush ▸ h)).symm.imp_right .inl

theorem mem_stack {p t : List Char} (h : t ∈ stack p) : t ∈ segments p ∨ t = up := by
  have hfold : ∀ (ss st : List (List Char)), t ∈ ss.foldl (pushSegment false) st →
      t ∈ st ∨ t ∈ ss ∨ t = up := by
    intro ss
    induction ss with
    | nil => exact fun st h => .inl h
    | cons s ss ih =>
      intro st h
      rcases ih _ h with h | h | h
      · rcases mem_pushSegment h with h | rfl | h
        · exact .inl h
        · exact .inr (.inl List.mem_cons_self)
        · exact .inr (.inr h)
      · exact .inr (.inl (List.mem_cons_of_mem _ h))
      · exact .inr (.inr h)
  simpa using hfold _ _ h

/-- Normalising brings no characters into a path but dots and slashes. -/
theorem mem_normal {p : List Char} {c : Char} (hp : IsRelative p) (h : c ∈ normal p) :
    c ∈ p ∨ c = '.' ∨ c = '/' := by
  rw [normal_of_isRelative hp] at h
  split at h
  · exact .inr (.inl (by simpa [here] using h))
  · rcases mem_ofSegments h with rfl | ⟨s, hs, hc⟩
    · exact .inr (.inr rfl)
    · rcases mem_stack (List.mem_reverse.mp hs) with hs | rfl
      · exact .inl (mem_of_mem_segments hs hc)
      · exact .inr (.inl (by simpa [up] using hc))

theorem mem_directory {p : List Char} {c : Char} (h : c ∈ directory p) : c ∈ p := by
  have hhead : ∀ c ∈ (p.reverse.dropWhile (· ≠ '/')).reverse, c ∈ p := fun c hc =>
    List.mem_reverse.mp ((List.dropWhile_suffix _).subset (List.mem_reverse.mp hc))
  unfold directory at h
  dsimp only at h
  split at h
  · exact hhead c h
  · exact hhead c ((List.rdropWhile_prefix _ _).subset h)

theorem mem_join {a b : List Char} {c : Char} (h : c ∈ join a b) : c ∈ a ∨ c ∈ b ∨ c = '/' := by
  unfold join at h
  split_ifs at h
  · exact .inr (.inl h)
  · exact (List.mem_append.mp h).imp_right .inl
  · rcases List.mem_append.mp h with h | h
    · exact .inl h
    · exact .inr ((List.mem_cons.mp h).symm)

/-! ## The paths of files -/

/-- The path of a file: it is relative and ends with a name. -/
structure IsFilePath (p : List Char) : Prop where
  isRelative : IsRelative p
  ends_with_name : ∃ front name, segments p = front ++ [name] ∧ IsName name

/-- Above the directory of a file, the stack of its path has one name. -/
theorem IsFilePath.tail_stack {p : List Char} (h : IsFilePath p) :
    (stack p).tail = stack (directory p) := by
  obtain ⟨front, name, hp, hname⟩ := h.ends_with_name
  rw [(directory_spec h.isRelative).2, stack, hp, List.foldl_append, List.dropLast_concat,
    List.foldl_cons, List.foldl_nil, pushSegment_of_isName hname, List.tail_cons]

theorem IsFilePath.stack_ne_nil {p : List Char} (h : IsFilePath p) : stack p ≠ [] := by
  obtain ⟨front, name, hp, hname⟩ := h.ends_with_name
  rw [stack, hp, List.foldl_append, List.foldl_cons, List.foldl_nil, pushSegment_of_isName hname]
  simp

theorem IsFilePath.segments_normal {p : List Char} (h : IsFilePath p) :
    segments (normal p) = (stack p).reverse := by
  rw [PathText.segments_normal h.isRelative, if_neg h.stack_ne_nil]

/-- **Detours in the path of a file do not matter to what is seen from its directory.** -/
theorem normal_join_directory_normal {p i : List Char} (hp : IsFilePath p) (hi : IsRelative i) :
    normal (join (directory (normal p)) i) = normal (join (directory p) i) := by
  obtain ⟨hrel, hstack⟩ := join_spec (directory_spec hp.isRelative).1 hi
  obtain ⟨hrel', hstack'⟩ := join_spec (directory_spec (isRelative_normal hp.isRelative)).1 hi
  refine normal_eq_of_stack_eq hrel' hrel ?_
  rw [hstack, hstack', ← hp.tail_stack, directory_normal hp.isRelative,
    stack_ofSegments_reverse (isReduced_stack p).tail]

end Layering.PathText
