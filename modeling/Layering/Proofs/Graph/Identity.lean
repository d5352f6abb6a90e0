import Layering.Proofs.Graph.Soundness

/-!
# Cycles that share a key

The key of a cycle is one text: the names of its nodes from the least one on, with arrows between
them. The text can be cut at its arrows again (`cutArrows`), and what lies between the arrows is all
that a key tells about a cycle (`key_eq_iff_pieces`). A name that holds no arrow is one such piece, so
among cycles of such names the keys are equal exactly for rotations (`key_eq_iff_isRotated`). A name
that holds an arrow falls into several pieces. Two cycles that are no rotations of each other can then
have the same key, and the search drops the one that it closes last (`close_dropped_iff`).
-/

namespace Layering

open Layering.Cycle

namespace Cycle

/-! ## Cutting a text at its arrows -/

/-- The arrow between two names of a key. -/
def arrow : List Char := ['-', '>']

/-- The pieces of a text before, between and behind its arrows. -/
def cutArrows : List Char → List (List Char)
  | [] => [[]]
  | '-' :: '>' :: s => [] :: cutArrows s
  | c :: s => (cutArrows s).modifyHead (c :: ·)

theorem cutArrows_cons {c : Char} {s : List Char} (h : ¬arrow <+: c :: s) :
    cutArrows (c :: s) = (cutArrows s).modifyHead (c :: ·) := by
  rw [cutArrows]
  rintro t rfl rfl
  exact h ⟨t, rfl⟩

theorem cutArrows_ne_nil (s : List Char) : cutArrows s ≠ [] := by
  fun_induction cutArrows s with
  | case1 => exact List.cons_ne_nil _ _
  | case2 s => exact List.cons_ne_nil _ _
  | case3 c s _ ih => exact fun h => ih (List.modifyHead_eq_nil_iff.mp h)

/-- Joining the pieces gives the text back. -/
theorem intercalate_cutArrows (s : List Char) : arrow.intercalate (cutArrows s) = s := by
  fun_induction cutArrows s with
  | case1 => rfl
  | case2 s ih =>
    obtain ⟨p, ps, hps⟩ := List.exists_cons_of_ne_nil (cutArrows_ne_nil s)
    rw [hps] at ih ⊢
    rw [List.intercalate_cons_cons, ih]
    rfl
  | case3 c s _ ih =>
    obtain ⟨p, ps, hps⟩ := List.exists_cons_of_ne_nil (cutArrows_ne_nil s)
    rw [hps] at ih ⊢
    rw [List.modifyHead_cons]
    conv_rhs => rw [← ih]
    cases ps with
    | nil => simp
    | cons q qs => simp [List.intercalate_cons_cons]

/-- An arrow cuts a text in two, whatever stands around it: no end of a text makes another arrow with
the beginning of this one. -/
theorem cutArrows_append_arrow (s t : List Char) :
    cutArrows (s ++ (arrow ++ t)) = cutArrows s ++ cutArrows t := by
  fun_induction cutArrows s with
  | case1 => rfl
  | case2 s ih => exact congrArg ([] :: ·) ih
  | case3 c s hne ih =>
    have hnot : ¬arrow <+: c :: (s ++ (arrow ++ t)) := by
      rintro ⟨rest, hcons⟩
      obtain ⟨rfl, hrest⟩ := List.cons.inj hcons
      cases s with
      | nil => exact absurd (List.cons.inj hrest).1 (by decide)
      | cons d s => exact hne s rfl (by rw [← (List.cons.inj hrest).1])
    obtain ⟨p, ps, hps⟩ := List.exists_cons_of_ne_nil (cutArrows_ne_nil s)
    rw [List.cons_append, cutArrows_cons hnot, ih, hps]
    rfl

theorem cutArrows_intercalate {ss : List (List Char)} (h : ss ≠ []) :
    cutArrows (arrow.intercalate ss) = ss.flatMap cutArrows := by
  induction ss with
  | nil => exact absurd rfl h
  | cons s ss ih =>
    cases ss with
    | nil => simp
    | cons t ts =>
      rw [List.intercalate_cons_cons, List.append_assoc, cutArrows_append_arrow,
        ih (List.cons_ne_nil _ _), ← List.flatMap_cons]

/-- A text without arrows is one piece. -/
theorem cutArrows_of_not_infix {s : List Char} (h : ¬arrow <:+: s) : cutArrows s = [s] := by
  induction s with
  | nil => rfl
  | cons c s ih =>
    have hhead : ¬arrow <+: c :: s := fun hp => h hp.isInfix
    have htail : ¬arrow <:+: s := fun hs => h (hs.trans (List.suffix_cons c s).isInfix)
    rw [cutArrows_cons hhead, ih htail]
    rfl

/-! ## What a key tells -/

/-- Names that differ from each other and are not empty, followed by the first of them again. -/
structure IsLoop (c : List String) : Prop where
  two_le : 2 ≤ c.length
  closed : c.head? = c.getLast?
  nodup : c.dropLast.Nodup
  named : "" ∉ c.dropLast

instance (c : List String) : Decidable (IsLoop c) :=
  decidable_of_iff (2 ≤ c.length ∧ c.head? = c.getLast? ∧ c.dropLast.Nodup ∧ "" ∉ c.dropLast)
    ⟨fun ⟨h₁, h₂, h₃, h₄⟩ => ⟨h₁, h₂, h₃, h₄⟩, fun ⟨h₁, h₂, h₃, h₄⟩ => ⟨h₁, h₂, h₃, h₄⟩⟩

/-- Names of which none holds an arrow. -/
def IsArrowFree (names : List String) : Prop := ∀ n ∈ names, ¬arrow <:+: n.toList

/-- The pieces of the names of a cycle, from its least node on. -/
def pieces (c : List String) : List (List Char) :=
  (rotateToLeast c.dropLast).flatMap fun n => cutArrows n.toList

theorem IsLoop.nodes_ne_nil {c : List String} (h : IsLoop c) : c.dropLast ≠ [] := by
  have htwo := h.two_le
  intro hnil
  have hlength := congrArg List.length hnil
  rw [List.length_dropLast, List.length_nil] at hlength
  omega

theorem toList_key (c : List String) :
    (key c).toList = arrow.intercalate ((rotateToLeast c.dropLast).map String.toList) :=
  String.toList_intercalate

/-- The pieces of a key are those of the names in it. -/
theorem cutArrows_key {c : List String} (h : IsLoop c) : cutArrows (key c).toList = pieces c := by
  have hne : rotateToLeast c.dropLast ≠ [] := fun hnil =>
    h.nodes_ne_nil (List.isRotated_nil_iff'.mp (hnil ▸ isRotated_rotateToLeast c.dropLast)).symm
  rw [toList_key, cutArrows_intercalate (by simpa using hne), List.flatMap_map, pieces]

/-- **A key tells the pieces of the names and nothing else.** -/
theorem key_eq_iff_pieces {c d : List String} (hc : IsLoop c) (hd : IsLoop d) :
    key c = key d ↔ pieces c = pieces d := by
  rw [← cutArrows_key hc, ← cutArrows_key hd]
  refine ⟨fun h => by rw [h], fun h => String.toList_inj.mp ?_⟩
  rw [← intercalate_cutArrows (key c).toList, h, intercalate_cutArrows]

theorem pieces_of_isArrowFree {c : List String} (h : IsArrowFree c) :
    pieces c = (rotateToLeast c.dropLast).map String.toList := by
  rw [pieces, List.map_eq_flatMap]
  refine List.flatMap_congr fun n hn => cutArrows_of_not_infix (h n ?_)
  exact List.dropLast_subset c ((isRotated_rotateToLeast _).mem_iff.mp hn)

/-- Among cycles whose names hold no arrow, the keys are equal exactly for rotations. -/
theorem key_eq_iff_isRotated {c d : List String} (hc : IsLoop c) (hd : IsLoop d)
    (hfree : IsArrowFree c) (hfree' : IsArrowFree d) :
    key c = key d ↔ c.dropLast ~r d.dropLast := by
  refine ⟨fun hkey => ?_, fun hrot => key_eq_of_isRotated hrot hc.nodup⟩
  have hpieces := (key_eq_iff_pieces hc hd).mp hkey
  rw [pieces_of_isArrowFree hfree, pieces_of_isArrowFree hfree'] at hpieces
  have hrotated : rotateToLeast c.dropLast = rotateToLeast d.dropLast :=
    List.map_injective_iff.mpr (fun _ _ => String.toList_inj.mp) hpieces
  exact (isRotated_rotateToLeast _).symm.trans (hrotated ▸ isRotated_rotateToLeast _)

end Cycle

/-! ## What a search drops -/

namespace Graph

variable {g : Graph} {s : Traversal} {f : Frame} {below : List Frame}

theorem IsCycle.isLoop {c : List String} (h : g.IsCycle c) : IsLoop c where
  two_le := h.two_le
  closed := h.closed
  nodup := h.nodup
  named := fun hmem =>
    (isSome_component?_iff.mp (h.isSome_component? (List.dropLast_subset c hmem))).1 rfl

theorem IsCycle.isArrowFree {c : List String} (h : g.IsCycle c)
    (hg : IsArrowFree (g.components.map (·.name))) : IsArrowFree c :=
  fun n hn => hg n (isSome_component?_iff.mp (h.isSome_component? hn)).2

/-- Reporting a cycle changes nothing exactly if one with its key was reported before. -/
theorem cycles_report_eq_iff (s : Traversal) (n : String) :
    (s.report n).cycles = s.cycles ↔
      ∃ d ∈ s.cycles, key d = key (s.path.dropWhile (· ≠ n) ++ [n]) := by
  rw [← List.mem_map]
  rcases cycles_report s n with ⟨heq, hmem⟩ | ⟨heq, hnew⟩
  · exact iff_of_true heq hmem
  · refine iff_of_false (fun hsame => ?_) hnew
    rw [heq] at hsame
    simp at hsame

/-- A search drops a cycle exactly if the pieces of its names, from the least node on, are those of a
cycle that was reported before. -/
theorem close_dropped_iff {dep : String} (he : Entered g s f below) (hr : Reported g s.cycles)
    (hdep : dep ∈ s.path) (harrow : g.Arrow f.name dep) :
    (s.report dep).cycles = s.cycles ↔
      ∃ d ∈ s.cycles, pieces d = pieces (s.path.dropWhile (· ≠ dep) ++ [dep]) := by
  have hcycle := (he.isCycle_close hdep harrow).1
  rw [cycles_report_eq_iff]
  exact exists_congr fun d => and_congr_right fun hd =>
    key_eq_iff_pieces (hr.1 d hd).isLoop hcycle.isLoop

/-- In a graph whose names hold no arrow, it drops a cycle exactly if a rotation of it was reported
before. -/
theorem close_dropped_iff_isRotated {dep : String} (he : Entered g s f below)
    (hr : Reported g s.cycles) (hdep : dep ∈ s.path) (harrow : g.Arrow f.name dep)
    (hg : IsArrowFree (g.components.map (·.name))) :
    (s.report dep).cycles = s.cycles ↔
      ∃ d ∈ s.cycles, d.dropLast ~r (s.path.dropWhile (· ≠ dep) ++ [dep]).dropLast := by
  have hcycle := (he.isCycle_close hdep harrow).1
  rw [cycles_report_eq_iff]
  exact exists_congr fun d => and_congr_right fun hd =>
    key_eq_iff_isRotated (hr.1 d hd).isLoop hcycle.isLoop ((hr.1 d hd).isArrowFree hg)
      (hcycle.isArrowFree hg)

/-- **Keys tell cycles apart by the pieces of their names.** Rotations of a cycle have its key. Two
cycles have the same key exactly if the pieces between the arrows of their names are the same from the
least node on; if no name holds an arrow, exactly if they are rotations of each other. A search
therefore drops a cycle that is no rotation of a reported one only if a name holds an arrow. -/
theorem keys_tell_apart {c d : List String} (hc : IsLoop c) (hd : IsLoop d) :
    (c.dropLast ~r d.dropLast → key c = key d) ∧
    (key c = key d ↔ pieces c = pieces d) ∧
    (IsArrowFree c → IsArrowFree d → (key c = key d ↔ c.dropLast ~r d.dropLast)) ∧
    ∀ (g : Graph) (s : Traversal) (f : Frame) (below : List Frame) (dep : String),
      Entered g s f below → Reported g s.cycles → dep ∈ s.path → g.Arrow f.name dep →
      ((s.report dep).cycles = s.cycles ↔
        ∃ d ∈ s.cycles, pieces d = pieces (s.path.dropWhile (· ≠ dep) ++ [dep])) ∧
      (IsArrowFree (g.components.map (·.name)) →
        ((s.report dep).cycles = s.cycles ↔
          ∃ d ∈ s.cycles, d.dropLast ~r (s.path.dropWhile (· ≠ dep) ++ [dep]).dropLast)) := by
  refine ⟨fun hrot => key_eq_of_isRotated hrot hc.nodup, key_eq_iff_pieces hc hd,
    key_eq_iff_isRotated hc hd, ?_⟩
  intro g s f below dep he hr hdep harrow
  exact ⟨close_dropped_iff he hr hdep harrow, close_dropped_iff_isRotated he hr hdep harrow⟩

/-- A graph with two pairs of files that depend on each other, and arrows in their names. -/
def arrowNames : Graph where
  components := [bareFile "a" ["b->c"], bareFile "b->c" ["a"], bareFile "a->b" ["c"],
    bareFile "c" ["a->b"]]
  rootPath := ""
  languages := []
  directories := []

/-- Two cycles of this graph have the same key and are no rotations of each other, and only one of
them is reported. -/
theorem keys_agree_arrowNames :
    IsLoop ["a", "b->c", "a"] ∧ IsLoop ["a->b", "c", "a->b"] ∧
      key ["a", "b->c", "a"] = key ["a->b", "c", "a->b"] ∧
      ¬["a", "b->c", "a"].dropLast ~r ["a->b", "c", "a->b"].dropLast ∧
      ["a->b", "c", "a->b"].IsChain arrowNames.Arrow ∧
      arrowNames.cycles.1 = [["a", "b->c", "a"]] := by
  have hc : IsLoop ["a", "b->c", "a"] := by decide
  have hd : IsLoop ["a->b", "c", "a->b"] := by decide
  exact ⟨hc, hd, (keys_tell_apart hc hd).2.1.mpr (by decide), by decide, by decide, by decide⟩

end Graph

end Layering
