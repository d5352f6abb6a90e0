import Layering.Proofs.Graph.Termination

/-!
# One start after the other

A survey searches from each start in turn and hands its marks on from one search to the next. Every
search starts coherent, because none before it leaves a name behind that is being visited, and every
search ends within the steps that it may make (`search_end`). What every search keeps therefore
holds of the whole survey (`foldl_visit`).
-/

namespace Layering.Graph

open Layering.Cycle

variable {g : Graph} {v : Survey} {start : String}

/-- The mark of a name between two searches. -/
def Survey.mark (v : Survey) (n : String) : Mark := (v.marks.lookup n).getD .unvisited

/-- No name is being visited between two searches. -/
def Survey.IsQuiet (v : Survey) : Prop := ∀ n, v.mark n ≠ .visiting

/-- The search from a start, when it has ended. -/
def search (g : Graph) (v : Survey) (start : String) : Traversal :=
  g.run g.stepBound (g.startAt v start)

/-- Whether a start is searched from: it has a name, and the name is not done. -/
def IsSearched (v : Survey) (start : String) : Prop := start ≠ "" ∧ v.mark start ≠ .done

theorem visit_of_not_isSearched (h : ¬ IsSearched v start) : g.visit v start = v := by
  have h' : start = "" ∨ v.mark start = .done := by
    by_contra hno
    push Not at hno
    exact h hno
  exact if_pos h'

theorem visit_of_isSearched (h : IsSearched v start) :
    g.visit v start = ⟨(g.search v start).marks, (g.search v start).cycles,
      if (g.search v start).abandoned then v.abandoned + 1 else v.abandoned⟩ := by
  have h' : ¬ (start = "" ∨ v.mark start = .done) := by
    rintro (h' | h')
    · exact h.1 h'
    · exact h.2 h'
  exact if_neg h'

/-- A search starts coherent. -/
theorem coherent_startAt (hv : v.IsQuiet) (hs : IsSearched v start)
    (hstart : (g.component? start).isSome) : Coherent g (g.startAt v start) where
  nodup := List.nodup_singleton _
  linked := .singleton _
  indexed := by simpa [Traversal.names, startAt] using hstart
  pending := by simp [startAt]
  path := by
    refine .inr ⟨start, [], rfl, ?_, rfl⟩
    change v.mark start = .unvisited
    cases hm : v.mark start with
    | unvisited => rfl
    | visiting => exact absurd hm (hv start)
    | done => exact absurd hm hs.2
  visiting := fun n => ⟨fun hn => absurd hn (hv n), fun hn => nomatch hn⟩
  ongoing := rfl

/-- **A search ends**, with no name left that is being visited, and with what it keeps. -/
theorem search_end {P : Traversal → Prop} (hP : Kept g P) (hv : v.IsQuiet)
    (hs : IsSearched v start) (hstart : (g.component? start).isSome)
    (h0 : P (g.startAt v start)) :
    (g.search v start).stack = [] ∧ (∀ n, (g.search v start).mark n ≠ .visiting) ∧
      P (g.search v start) := by
  have hc := coherent_startAt hv hs hstart
  have hend : (g.search v start).stack = [] :=
    stack_run_eq_nil _ hc (potential_startAt_le hstart)
  obtain ⟨hc' | hgiven, hkept⟩ := hP.run g.stepBound hc h0
  · refine ⟨hend, fun n hn => ?_, hkept⟩
    have hmem := (hc'.visiting n).mp hn
    have hnil : (g.search v start).names = [] := by rw [Traversal.names, hend]; rfl
    rcases hc'.path with hpath | ⟨k, rest, hk, -, -⟩
    · rw [hpath, show (g.run _ _).names = [] from hnil] at hmem
      simp at hmem
    · rw [show (g.run _ _).names = [] from hnil] at hk
      cases hk
  · exact ⟨hend, hgiven.visiting, hkept⟩

theorem isQuiet_visit (hv : v.IsQuiet) (hstart : start ∈ g.components.map (·.name)) :
    (g.visit v start).IsQuiet := by
  by_cases hs : IsSearched v start
  · have hsome := isSome_component?_iff.mpr ⟨hs.1, hstart⟩
    have hkept : Kept g fun _ => True :=
      ⟨fun _ _ _ => trivial, fun _ _ _ => trivial, fun _ _ _ => trivial⟩
    rw [visit_of_isSearched hs]
    exact (search_end hkept hv hs hsome trivial).2.1
  · rwa [visit_of_not_isSearched hs]

/-- A property that each visit keeps holds after the visits of any starts. -/
theorem foldl_visit {Q : Survey → Prop} {starts : List String}
    (hstarts : starts ⊆ g.components.map (·.name)) (hv : v.IsQuiet) (h0 : Q v)
    (hQ : ∀ {v start}, v.IsQuiet → (g.component? start).isSome → IsSearched v start → Q v →
      Q (g.visit v start)) :
    (starts.foldl g.visit v).IsQuiet ∧ Q (starts.foldl g.visit v) := by
  induction starts generalizing v with
  | nil => exact ⟨hv, h0⟩
  | cons start starts ih =>
    obtain ⟨hmem, hrest⟩ := List.cons_subset.mp hstarts
    rw [List.foldl_cons]
    refine ih hrest (isQuiet_visit hv hmem) ?_
    by_cases hs : IsSearched v start
    · exact hQ hv (isSome_component?_iff.mpr ⟨hs.1, hmem⟩) hs h0
    · rwa [visit_of_not_isSearched hs]

end Layering.Graph
