import Layering.Graph.Cycle
import Mathlib.Data.List.Chain
import Mathlib.Logic.Relation

/-!
# Arrows, strongly connected parts and cycles

The relation that the search for cycles walks along. There is an arrow from `u` to `v` when `v` is
among the names that `u` depends on; both ends of an arrow then stand for components. A strongly
connected part consists of the names that reach a given one and are reached from it, and a cycle is
a closed walk that passes through no name twice. All names of a cycle lie in one strongly connected
part (`IsCycle.mem_strongPart`).
-/

namespace Layering.Graph

variable {g : Graph}

/-! ## Look-ups -/

theorem component?_eq_some {n : String} {c : Component} (h : g.component? n = some c) :
    c ∈ g.components ∧ c.name = n ∧ n ≠ "" := by
  unfold component? at h
  split at h
  · cases h
  · rename_i hn
    exact ⟨List.mem_of_find?_eq_some h, by simpa using List.find?_some h, hn⟩

/-- A name stands for a component when it is the name of one and not empty. -/
theorem isSome_component?_iff {n : String} :
    (g.component? n).isSome ↔ n ≠ "" ∧ n ∈ g.components.map (·.name) := by
  unfold component?
  split
  · simp_all
  · rename_i hn
    simp [hn, List.find?_isSome]

theorem mem_dependencyNames {u v : String} :
    v ∈ g.dependencyNames u ↔
      ∃ c, g.component? u = some c ∧ v ∈ c.dependencies ∧ (g.component? v).isSome := by
  unfold dependencyNames dependencies
  cases hu : g.component? u with
  | none => simp
  | some c =>
    simp only [List.mem_map, List.mem_filterMap, Option.some.injEq, exists_eq_left']
    constructor
    · rintro ⟨d, ⟨n, hn, hd⟩, rfl⟩
      obtain ⟨-, rfl, -⟩ := component?_eq_some hd
      exact ⟨hn, by rw [hd]; rfl⟩
    · rintro ⟨hv, hs⟩
      obtain ⟨d, hd⟩ := Option.isSome_iff_exists.mp hs
      exact ⟨d, ⟨v, hv, hd⟩, (component?_eq_some hd).2.1⟩

/-! ## Arrows -/

/-- An arrow of the graph leads from a name to each name that it depends on. -/
def Arrow (g : Graph) (u v : String) : Prop := v ∈ g.dependencyNames u

instance (g : Graph) (u v : String) : Decidable (g.Arrow u v) :=
  inferInstanceAs (Decidable (v ∈ g.dependencyNames u))

/-- A name reaches another when arrows lead from it to the other, or when they are the same. -/
def Reaches (g : Graph) : String → String → Prop := Relation.ReflTransGen g.Arrow

theorem Arrow.isSome_left {u v : String} (h : g.Arrow u v) : (g.component? u).isSome := by
  obtain ⟨c, hc, -, -⟩ := mem_dependencyNames.mp h
  rw [hc]; rfl

theorem Arrow.isSome_right {u v : String} (h : g.Arrow u v) : (g.component? v).isSome := by
  obtain ⟨-, -, -, hv⟩ := mem_dependencyNames.mp h
  exact hv

/-- The strongly connected part of a name: the names that it reaches and that reach it. -/
def strongPart (g : Graph) (u : String) : Set String := {v | g.Reaches u v ∧ g.Reaches v u}

theorem self_mem_strongPart (u : String) : u ∈ g.strongPart u := ⟨.refl, .refl⟩

theorem strongPart_eq_of_mem {u v : String} (h : v ∈ g.strongPart u) :
    g.strongPart v = g.strongPart u := by
  obtain ⟨huv, hvu⟩ := h
  ext w
  constructor
  · rintro ⟨hvw, hwv⟩
    exact ⟨huv.trans hvw, hwv.trans hvu⟩
  · rintro ⟨huw, hwu⟩
    exact ⟨hvu.trans huw, hwu.trans huv⟩

/-- A part with an arrow in it has an arrow inside it from each of its names. -/
theorem exists_arrow_of_mem_strongPart {w u v x : String} (hu : u ∈ g.strongPart w)
    (hv : v ∈ g.strongPart w) (h : g.Arrow u v) (hx : x ∈ g.strongPart w) :
    ∃ y ∈ g.strongPart w, g.Arrow x y := by
  have hxu : g.Reaches x u := hx.2.trans hu.1
  rcases Relation.ReflTransGen.cases_head hxu with rfl | ⟨y, hxy, hyu⟩
  · exact ⟨v, hv, h⟩
  · exact ⟨y, ⟨hx.1.tail hxy, hyu.trans hu.2⟩, hxy⟩

/-! ## Cycles -/

/-- A closed walk along arrows, given with its first name repeated at its end, that passes through
no name twice. -/
structure IsCycle (g : Graph) (c : List String) : Prop where
  two_le : 2 ≤ c.length
  closed : c.head? = c.getLast?
  nodup : c.dropLast.Nodup
  chain : c.IsChain g.Arrow

namespace IsCycle

/-- Every name of a cycle is reached from every other. -/
theorem reaches {c : List String} (h : g.IsCycle c) {u v : String} (hu : u ∈ c) (hv : v ∈ c) :
    g.Reaches u v := by
  obtain ⟨-, hclosed, -, hchain⟩ := h
  obtain ⟨a, rest, rfl⟩ := List.exists_cons_of_ne_nil (List.ne_nil_of_mem hu)
  have hr : (a :: rest).IsChain g.Reaches := hchain.imp fun _ _ h => .single h
  have hpair : (a :: rest).Pairwise g.Reaches := by
    have : IsTrans String g.Reaches := ⟨fun _ _ _ h h' => h.trans h'⟩
    exact List.isChain_iff_pairwise.mp hr
  -- from `u` on to the last name, which is the first again, and from there to `v`
  have hlast : (a :: rest).getLast? = some a := by rw [← hclosed]; rfl
  have hua : g.Reaches u a := by
    obtain ⟨init, hinit⟩ := List.getLast?_eq_some_iff.mp hlast
    rw [hinit] at hu hpair
    rcases List.mem_append.mp hu with hu | hu
    · exact (List.pairwise_append.mp hpair).2.2 u hu a (by simp)
    · rw [List.mem_singleton.mp hu]; exact .refl
  have hav : g.Reaches a v := by
    rcases List.mem_cons.mp hv with rfl | hv
    · exact .refl
    · exact (List.pairwise_cons.mp hpair).1 v hv
  exact hua.trans hav

theorem mem_strongPart {c : List String} (h : g.IsCycle c) {u v : String} (hu : u ∈ c)
    (hv : v ∈ c) : v ∈ g.strongPart u :=
  ⟨h.reaches hu hv, h.reaches hv hu⟩

/-- A cycle leads from each of its names back to it. -/
theorem transGen_self {c : List String} (h : g.IsCycle c) {u : String} (hu : u ∈ c) :
    Relation.TransGen g.Arrow u u := by
  have hall := fun {v w} => h.reaches (u := v) (v := w)
  obtain ⟨hlen, -, -, hchain⟩ := h
  rcases c with _ | ⟨a, _ | ⟨b, rest⟩⟩
  · simp at hlen
  · simp at hlen
  · have hab : g.Arrow a b := (List.isChain_cons_cons.mp hchain).1
    have hau : Relation.TransGen g.Arrow a u := .head' hab (hall (by simp) hu)
    exact Relation.TransGen.trans_right (hall hu (by simp)) hau

/-- Every name of a cycle stands for a component. -/
theorem isSome_component? {c : List String} (h : g.IsCycle c) {n : String} (hn : n ∈ c) :
    (g.component? n).isSome := by
  obtain ⟨y, hy, -⟩ := Relation.TransGen.head'_iff.mp (h.transGen_self hn)
  exact hy.isSome_left

end IsCycle

end Layering.Graph
