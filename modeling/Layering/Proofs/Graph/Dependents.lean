import Layering.Proofs.Graph.Arrow
import Layering.Proofs.List.Repetition

/-!
# Dependents

The dependents of a name are found under the names of the components that list it, so a component is
among them as soon as some component with its name lists the name (`mem_dependents_of_name`). Where
a name is repeated, the one that lists the name need not be the one that the repeated name stands
for: dependents are the converse of dependencies exactly where no repeated component lists a name
that the first one does not (`component_mem_dependents_iff`). Each dependent is there once.
-/

namespace Layering.Graph

variable {g : Graph}

theorem mem_dependentNames {a b : String} :
    b ∈ g.dependentNames a ↔ ∃ d ∈ g.components, d.name = b ∧ a ∈ d.dependencies := by
  rw [dependentNames, List.mem_eraseDups, List.mem_map]
  constructor
  · rintro ⟨d, hd, hname⟩
    obtain ⟨hmem, hlists⟩ := List.mem_filter.mp hd
    exact ⟨d, hmem, hname, List.contains_iff_mem.mp hlists⟩
  · rintro ⟨d, hmem, hname, hlists⟩
    exact ⟨d, List.mem_filter.mpr ⟨hmem, List.contains_iff_mem.mpr hlists⟩, hname⟩

/-- A component stands for one name only. -/
theorem eq_of_component?_eq_some {m n : String} {c : Component} (hm : g.component? m = some c)
    (hn : g.component? n = some c) : m = n :=
  (component?_eq_some hm).2.1.symm.trans (component?_eq_some hn).2.1

/-- The component of a name is a dependent as soon as some component of that name is. -/
theorem mem_dependents_of_name {a b : String} {c : Component} (hc : g.component? b = some c) :
    c ∈ g.dependents a ↔ ∃ d ∈ g.components, d.name = b ∧ a ∈ d.dependencies := by
  rw [← mem_dependentNames, dependents, List.mem_filterMap]
  constructor
  · rintro ⟨n, hn, hcomponent⟩
    rwa [eq_of_component?_eq_some hc hcomponent]
  · exact fun hb => ⟨b, hb, hc⟩

theorem nodup_dependents (g : Graph) (a : String) : (g.dependents a).Nodup :=
  (nodup_eraseDups _).filterMap fun _ _ _ hm hn => eq_of_component?_eq_some hm hn

/-- **Dependents are the converse of dependencies up to repeated names.** The component that a name
stands for is a dependent of another name exactly if some component with its own name lists the
other, and it is there at most once. So being a dependent and listing the name are the same exactly
if no component with the same name lists it without the first one listing it too. -/
theorem component_mem_dependents_iff {g : Graph} {b : String} {c : Component}
    (hc : g.component? b = some c) (a : String) :
    (c ∈ g.dependents a ↔ ∃ d ∈ g.components, d.name = b ∧ a ∈ d.dependencies) ∧
      (g.dependents a).count c ≤ 1 ∧
      ((c ∈ g.dependents a ↔ a ∈ c.dependencies) ↔
        ∀ d ∈ g.components, d.name = b → a ∈ d.dependencies → a ∈ c.dependencies) := by
  have hmem := mem_dependents_of_name (a := a) hc
  obtain ⟨hin, hname, -⟩ := component?_eq_some hc
  refine ⟨hmem, List.nodup_iff_count_le_one.mp (g.nodup_dependents a) c, ?_⟩
  rw [hmem]
  constructor
  · intro hconverse d hd hdname hlists
    exact hconverse.mp ⟨d, hd, hdname, hlists⟩
  · intro hfirst
    constructor
    · rintro ⟨d, hd, hdname, hlists⟩
      exact hfirst d hd hdname hlists
    · exact fun hlists => ⟨c, hin, hname, hlists⟩

/-- The first of two files with the same name, which depends on nothing. -/
def firstView : Component := ⟨"view", "src/ui/view.ts", "src/ui", "file", "view", [], []⟩

/-- A graph in which the second of the two files depends on a third. -/
def repeatedView : Graph where
  components := [firstView, ⟨"store", "src/store.ts", "src", "file", "store", [], []⟩,
    ⟨"view", "src/admin/view.ts", "src/admin", "file", "view", [], ["store"]⟩]
  rootPath := ""
  languages := []
  directories := []

theorem firstView_mem_dependents :
    repeatedView.component? "view" = some firstView ∧
      firstView ∈ repeatedView.dependents "store" ∧ "store" ∉ firstView.dependencies := by
  have hc : repeatedView.component? "view" = some firstView := by decide
  obtain ⟨hmem, -, -⟩ := component_mem_dependents_iff hc "store"
  exact ⟨hc, hmem.mpr (by decide), by decide⟩

end Layering.Graph
