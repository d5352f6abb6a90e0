import Layering.Proofs.Graph.Key
import Layering.Proofs.Graph.Survey

/-!
# Reported cycles are cycles

The cycle that a search reports is cut out of its path. As the path is a walk along arrows that
passes through no name twice and ends with the name of the top frame, what is cut out is a cycle
(`Entered.isCycle_close`). A search reports no two cycles with the same key, and rotations of a
cycle have its key, so no cycle is reported twice, whatever its starting point (`cycles_sound`).
-/

namespace Layering.Graph

open Layering.Cycle

variable {g : Graph} {s s' : Traversal} {f : Frame} {below : List Frame}

/-- What is cut out of the path by an arrow back to one of its names is a cycle through the name of
the top frame. -/
theorem Entered.isCycle_close (h : Entered g s f below) {dep : String} (hdep : dep ∈ s.path)
    (harrow : g.Arrow f.name dep) :
    g.IsCycle (s.path.dropWhile (· ≠ dep) ++ [dep]) ∧
      f.name ∈ s.path.dropWhile (· ≠ dep) ++ [dep] := by
  obtain ⟨front, back, hpath, hdrop⟩ := exists_dropWhile_eq hdep
  have hsuffix : dep :: back <:+ s.path := ⟨front, hpath.symm⟩
  have hlast : (dep :: back).getLast? = some f.name := by
    have hne : dep :: back ≠ [] := by simp
    rw [← List.getLast?_append_of_ne_nil front hne, ← hpath, h.path_eq_append, List.getLast?_concat]
  rw [hdrop]
  refine ⟨⟨by simp, by rw [List.getLast?_concat]; rfl, ?_, ?_⟩, ?_⟩
  · rw [List.dropLast_concat]
    exact h.nodup_path.sublist hsuffix.sublist
  · refine List.isChain_append.mpr ⟨h.isChain_path.suffix hsuffix, .singleton _, ?_⟩
    intro u hu v hv
    rw [hlast] at hu
    obtain rfl := Option.some.inj hu
    obtain rfl := Option.some.inj hv
    exact harrow
  · exact List.mem_append_left _ (List.mem_of_getLast? hlast)

/-- The cycles that were reported are cycles, and no two of them have the same key. -/
def Reported (g : Graph) (cycles : List (List String)) : Prop :=
  (∀ c ∈ cycles, g.IsCycle c) ∧ (cycles.map key).Nodup

/-- Reporting a cycle adds it, unless one with its key was reported before. -/
theorem cycles_report (s : Traversal) (n : String) :
    (s.report n).cycles = s.cycles ∧ key (s.path.dropWhile (· ≠ n) ++ [n]) ∈ s.cycles.map key ∨
      (s.report n).cycles = s.cycles ++ [s.path.dropWhile (· ≠ n) ++ [n]] ∧
        key (s.path.dropWhile (· ≠ n) ++ [n]) ∉ s.cycles.map key := by
  unfold Traversal.report Traversal.knows
  dsimp only
  split
  · rename_i hk
    exact .inl ⟨rfl, List.contains_iff_mem.mp hk⟩
  · rename_i hk
    exact .inr ⟨rfl, fun hmem => hk (List.contains_iff_mem.mpr hmem)⟩

theorem kept_reported (g : Graph) : Kept g fun s => Reported g s.cycles where
  enter := fun _ _ hs => by simpa using hs
  abandon := fun _ _ hs => hs
  move := fun {s f below s'} he hm hs => by
    cases hm with
    | leave hf => exact hs
    | push hf hdep => exact hs
    | skip hf hdep => exact hs
    | close hf hdep =>
      rename_i dep rest
      have hcycle := (he.isCycle_close hdep (he.arrow_of_mem_pending (by simp [hf]))).1
      rcases cycles_report { s with stack := ⟨f.name, rest⟩ :: below } dep with
        ⟨heq, -⟩ | ⟨heq, hnew⟩
      · rw [heq]
        exact hs
      · rw [heq]
        refine ⟨List.forall_mem_append.mpr ⟨hs.1, by simpa using hcycle⟩, ?_⟩
        rw [List.map_append, List.map_singleton, ← List.concat_eq_append]
        exact hs.2.concat hnew

theorem reported_cycles (g : Graph) : Reported g g.cycles.1 := by
  have h := foldl_visit (g := g) (v := ⟨[], [], 0⟩) (Q := fun v => Reported g v.cycles)
    (List.Subset.refl _) (fun n => by simp [Survey.mark]) ⟨by simp, by simp⟩ ?_
  · exact h.2
  · intro v start hv hstart hs hQ
    rw [visit_of_isSearched hs]
    exact (search_end (kept_reported g) hv hs hstart hQ).2.2

/-- **Reported cycles are cycles, each reported once.** A reported list has at least two entries and
begins and ends with the same name; its other entries stand for components and differ from each
other; there is an arrow from each entry to the next; and no two lists have nodes that are rotations
of each other. -/
theorem cycles_sound (g : Graph) :
    (∀ c ∈ g.cycles.1,
      2 ≤ c.length ∧ c.head? = c.getLast? ∧ c.dropLast.Nodup ∧
        (∀ n ∈ c.dropLast, (g.component? n).isSome) ∧ c.IsChain g.Arrow) ∧
      g.cycles.1.Pairwise fun c d => ¬ c.dropLast.IsRotated d.dropLast := by
  obtain ⟨hcycle, hkeys⟩ := g.reported_cycles
  refine ⟨fun c hc => ?_, ?_⟩
  · have h := hcycle c hc
    exact ⟨h.two_le, h.closed, h.nodup,
      fun n hn => h.isSome_component? (List.dropLast_subset c hn), h.chain⟩
  · refine List.Pairwise.imp_of_mem ?_ (List.pairwise_map.mp hkeys)
    intro c d hc _ hne hrot
    exact hne (key_eq_of_isRotated hrot (hcycle c hc).nodup)

/-- A file of which only the dependencies matter. -/
def bareFile (name : String) (dependencies : List String) : Component :=
  ⟨name, name, "", "file", "", [], dependencies⟩

/-- A graph with two loops: two files that depend on each other, one of them also on a file that
depends on itself. A name is repeated, and a dependency stands for nothing. -/
def twoLoops : Graph where
  components := [bareFile "ui" ["core", "react"], bareFile "core" ["util", "ui"],
    bareFile "util" ["util"], bareFile "ui" ["util"]]
  rootPath := ""
  languages := []
  directories := []

theorem cycles_sound_twoLoops :
    ["ui", "core", "ui"] ∈ twoLoops.cycles.1 ∧
      2 ≤ ["ui", "core", "ui"].length ∧
      ["ui", "core", "ui"].head? = ["ui", "core", "ui"].getLast? ∧
      ["ui", "core", "ui"].dropLast.Nodup ∧
      (∀ n ∈ ["ui", "core", "ui"].dropLast, (twoLoops.component? n).isSome) ∧
      ["ui", "core", "ui"].IsChain twoLoops.Arrow :=
  have hmem : ["ui", "core", "ui"] ∈ twoLoops.cycles.1 := by decide
  ⟨hmem, (cycles_sound twoLoops).1 _ hmem⟩

end Layering.Graph
