import Layering.Proofs.Graph.Search
import Mathlib.Algebra.BigOperators.Group.Finset.Basic
import Mathlib.Algebra.GroupWithZero.Nat
import Mathlib.Algebra.Order.BigOperators.Group.Finset
import Mathlib.Algebra.Order.BigOperators.Group.List

/-!
# The search ends

Every name costs one unit for its frame and one for each of its dependencies. The potential of a
search is what is left to pay: for the frames on the stack, what is pending there, and for the names
that were neither visited nor pushed, their full cost. Each step that does not give the search up
lowers the potential (`potential_step_lt`), and at the start it is at most the cost of all
components, so the steps that `visit` allows are enough (`stack_run_eq_nil`).
-/

namespace Layering.Graph

open Layering.Cycle

variable {g : Graph} {s s' : Traversal} {f : Frame} {below : List Frame}

/-- The names that stand for components. -/
def nameSet (g : Graph) : Finset String := ((g.components.map (·.name)).filter (· ≠ "")).toFinset

theorem mem_nameSet {n : String} : n ∈ g.nameSet ↔ (g.component? n).isSome := by
  rw [isSome_component?_iff, nameSet, List.mem_toFinset, List.mem_filter]
  simp [and_comm]

/-- The cost of a name: its frame and each of its dependencies. -/
def cost (g : Graph) (n : String) : ℕ := (g.dependencyNames n).length + 1

/-- The names that were neither visited nor pushed. -/
def fresh (g : Graph) (s : Traversal) : Finset String :=
  g.nameSet.filter fun n => s.mark n = .unvisited ∧ n ∉ s.names

/-- What is pending on the stack, with one unit for each frame. -/
def owed (stack : List Frame) : ℕ := (stack.map fun f => f.pending.length + 1).sum

/-- What a search has still to do. -/
def potential (g : Graph) (s : Traversal) : ℕ := owed s.stack + ∑ n ∈ g.fresh s, g.cost n

@[simp] theorem owed_nil : owed [] = 0 := rfl

@[simp] theorem owed_cons (f : Frame) (below : List Frame) :
    owed (f :: below) = f.pending.length + 1 + owed below := by
  simp [owed]

theorem mem_fresh {n : String} :
    n ∈ g.fresh s ↔ (g.component? n).isSome ∧ s.mark n = .unvisited ∧ n ∉ s.names := by
  rw [fresh, Finset.mem_filter, mem_nameSet]

theorem fresh_enter (hs : s.stack = f :: below) : g.fresh (s.enter f.name) = g.fresh s := by
  have hmem : f.name ∈ s.names := by simp [Traversal.names_of_stack_eq hs]
  ext n
  rw [mem_fresh, mem_fresh, Traversal.names_enter, Traversal.mark_enter]
  rcases eq_or_ne n f.name with rfl | hn
  · simp [hmem]
  · simp [hn]

/-- A move lowers the potential. -/
theorem Entered.potential_move_lt (h : Entered g s f below) (hm : Move g s f below s') :
    potential g s' < potential g s := by
  have hnames := h.names_eq
  cases hm with
  | leave hf =>
    -- the name that is left is no longer on the stack, but it is done
    have hfresh : g.fresh { s.setMark f.name .done with stack := below, path := s.path.dropLast } =
        g.fresh s := by
      ext n
      rw [mem_fresh, mem_fresh, hnames]
      change _ ∧ (s.setMark f.name .done).mark n = _ ∧ n ∉ below.map (·.name) ↔ _
      rw [Traversal.mark_setMark]
      rcases eq_or_ne n f.name with rfl | hn
      · simp
      · simp [hn]
    simp only [potential, hfresh, h.stack_eq, owed_cons, hf, List.length_nil]
    omega
  | push hf hdep =>
    rename_i dep rest
    have harrow := h.arrow_of_mem_pending (show dep ∈ f.pending by simp [hf])
    have hnotin : dep ∉ s.names := fun hmem => by
      rw [← h.mark_eq_visiting_iff, hdep] at hmem
      cases hmem
    have hmem : dep ∈ g.fresh s := mem_fresh.mpr ⟨harrow.isSome_right, hdep, hnotin⟩
    have hfresh : g.fresh
        { s with stack := ⟨dep, g.dependencyNames dep⟩ :: ⟨f.name, rest⟩ :: below } =
        (g.fresh s).erase dep := by
      ext n
      rw [Finset.mem_erase, mem_fresh, mem_fresh, hnames]
      change _ ∧ s.mark n = _ ∧ n ∉ dep :: f.name :: below.map (·.name) ↔ _
      rw [List.mem_cons]
      tauto
    have hsum := Finset.add_sum_erase (g.fresh s) g.cost hmem
    simp only [potential, hfresh, h.stack_eq, owed_cons, hf, List.length_cons]
    simp only [cost] at hsum ⊢
    omega
  | skip hf hdep =>
    rename_i dep rest
    have hfresh : g.fresh { s with stack := ⟨f.name, rest⟩ :: below } = g.fresh s := by
      ext n
      rw [mem_fresh, mem_fresh, hnames]
      rfl
    simp only [potential, hfresh, h.stack_eq, owed_cons, hf, List.length_cons]
    omega
  | close hf hdep =>
    rename_i dep rest
    have hfresh : g.fresh ({ s with stack := ⟨f.name, rest⟩ :: below }.report dep) = g.fresh s := by
      ext n
      rw [mem_fresh, mem_fresh, Traversal.mark_report, Traversal.names_report, hnames]
      rfl
    simp only [potential, hfresh, Traversal.stack_report, h.stack_eq, owed_cons, hf,
      List.length_cons]
    omega

/-- Each step that does not give the search up lowers the potential. -/
theorem potential_step_lt (h : Coherent g s) (hs : s.stack = f :: below)
    (hdeep : s.stack.length ≤ maxCycleDepth) : potential g (g.step s) < potential g s := by
  rcases step_cases h hs with ⟨hlt, -⟩ | ⟨-, hmove⟩
  · omega
  · have hlt := (h.enter hs).potential_move_lt hmove
    rwa [potential, potential, fresh_enter hs, Traversal.stack_enter, ← potential,
      ← potential] at hlt

/-- A search ends when it may make as many steps as its potential says. -/
theorem stack_run_eq_nil (fuel : ℕ) (h : Coherent g s) (hp : potential g s ≤ fuel) :
    (g.run fuel s).stack = [] := by
  induction fuel generalizing s with
  | zero =>
    rcases hstack : s.stack with _ | ⟨f, below⟩
    · exact hstack
    · rw [potential, hstack, owed_cons] at hp
      omega
  | succ fuel ih =>
    rcases hstack : s.stack with _ | ⟨f, below⟩
    · rw [run_of_stack_eq_nil _ hstack, hstack]
    · rw [run_succ_of_stack_eq_cons fuel hstack]
      rcases step_cases h hstack with ⟨-, hstep⟩ | ⟨hdeep, hmove⟩
      · rw [hstep, run_of_stack_eq_nil _ rfl]
        rfl
      · have hlt := potential_step_lt h hstack hdeep
        exact ih ((h.enter hstack).coherent_move hmove) (by omega)

/-! ## Enough steps -/

theorem length_dependencyNames_le {n : String} {c : Component} (hc : g.component? n = some c) :
    (g.dependencyNames n).length ≤ c.dependencies.length := by
  simp only [dependencyNames, dependencies, hc, List.length_map]
  exact List.length_filterMap_le _ _

theorem sum_cost_le {l : List String} (hl : ∀ n ∈ l, (g.component? n).isSome) :
    (l.map g.cost).sum ≤
      ((l.filterMap g.component?).map fun c => c.dependencies.length + 1).sum := by
  induction l with
  | nil => simp
  | cons n l ih =>
    obtain ⟨hn, hl⟩ := List.forall_mem_cons.mp hl
    obtain ⟨c, hc⟩ := Option.isSome_iff_exists.mp hn
    have hcost := length_dependencyNames_le hc
    have hrest := ih hl
    rw [List.filterMap_cons_some hc]
    simp only [List.map_cons, List.sum_cons, cost]
    omega

theorem stepBound_eq (g : Graph) :
    g.stepBound = (g.components.map fun c => c.dependencies.length + 1).sum + 1 := by
  unfold stepBound
  induction g.components with
  | nil => rfl
  | cons c cs ih =>
    simp only [List.length_cons, List.flatMap_cons, List.length_append, List.map_cons,
      List.sum_cons]
    omega

/-- All names together cost at most what the bound on the steps allows. -/
theorem sum_cost_lt_stepBound (g : Graph) : ∑ n ∈ g.nameSet, g.cost n < g.stepBound := by
  -- the components that names stand for occur among all components, none of them twice
  have hchosen : (g.nameSet.toList.filterMap g.component?).Subperm g.components := by
    refine List.subperm_of_subset (g.nameSet.nodup_toList.filterMap ?_) ?_
    · intro n n' c hn hn'
      rw [← (component?_eq_some hn).2.1, ← (component?_eq_some hn').2.1]
    · intro c hc
      obtain ⟨n, -, hn⟩ := List.mem_filterMap.mp hc
      exact (component?_eq_some hn).1
  obtain ⟨l, hperm, hsub⟩ := hchosen
  have hnames := sum_cost_le (g := g) (l := g.nameSet.toList) fun n hn =>
    mem_nameSet.mp (Finset.mem_toList.mp hn)
  have hl := (hperm.map fun c => c.dependencies.length + 1).sum_nat
  have hle := (hsub.map fun c => c.dependencies.length + 1).sum_le_sum fun _ _ => Nat.zero_le _
  have hsum : (g.nameSet.toList.map g.cost).sum = ∑ n ∈ g.nameSet, g.cost n :=
    Finset.sum_map_toList g.nameSet g.cost
  rw [stepBound_eq]
  omega

/-- The potential at the start of a search is below the bound on the steps. -/
theorem potential_startAt_le {survey : Survey} {start : String}
    (hstart : (g.component? start).isSome) :
    potential g (g.startAt survey start) ≤ g.stepBound := by
  have hmem : start ∈ g.nameSet := mem_nameSet.mpr hstart
  have hsub : g.fresh (g.startAt survey start) ⊆ g.nameSet.erase start := by
    intro n hn
    rw [fresh, Finset.mem_filter] at hn
    refine Finset.mem_erase.mpr ⟨?_, hn.1⟩
    rintro rfl
    exact hn.2.2 (by simp [Traversal.names, startAt])
  have hle : ∑ n ∈ g.fresh (g.startAt survey start), g.cost n ≤
      ∑ n ∈ g.nameSet.erase start, g.cost n :=
    Finset.sum_le_sum_of_subset hsub
  have hsum := Finset.add_sum_erase g.nameSet g.cost hmem
  have hall := g.sum_cost_lt_stepBound
  have howed : owed (g.startAt survey start).stack = g.cost start := by simp [startAt, cost]
  rw [potential, howed]
  omega

end Layering.Graph
