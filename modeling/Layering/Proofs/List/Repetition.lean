import Mathlib.Algebra.BigOperators.Group.List.Lemmas
import Mathlib.Algebra.GroupWithZero.Nat
import Mathlib.Data.List.Dedup
import Mathlib.Data.List.Perm.Basic

/-!
# Lists without repetitions

Repetitions are left out in two ways. Those that stand side by side are dropped by a walk along the
list (`eraseReps_cons_cons`), which leaves each member once when the list is in order
(`nodup_eraseReps`). All of them are dropped when each member is kept at its first place
(`nodup_eraseDups`, `pairwise_idxOf_eraseDups`), and the members then count those of the whole list
(`sum_count_eraseDups`).

The groups of the members of a list by a key, one for each key that occurs, hold all members
(`perm_groups`).
-/

namespace Layering

theorem eraseReps_cons_cons {α : Type*} [BEq α] (a b : α) (l : List α) :
    (a :: b :: l).eraseReps = if a == b then (a :: l).eraseReps else a :: (b :: l).eraseReps := by
  have hloop : ∀ (l : List α) (a : α) (acc : List α),
      List.eraseRepsBy.loop (· == ·) a l acc =
        acc.reverse ++ List.eraseRepsBy.loop (· == ·) a l [] := by
    intro l
    induction l with
    | nil => simp [List.eraseRepsBy.loop]
    | cons b l ih =>
      intro a acc
      simp only [List.eraseRepsBy.loop]
      split
      · exact ih a acc
      · rw [ih b (a :: acc), ih b [a]]
        simp
  change List.eraseRepsBy.loop (· == ·) a (b :: l) [] = _
  rw [List.eraseRepsBy.loop]
  split
  · rename_i h
    rw [if_pos h]
    rfl
  · rename_i h
    rw [if_neg (by simpa using h), hloop]
    rfl

theorem mem_of_mem_eraseReps {α : Type*} [BEq α] {x : α} {l : List α} (h : x ∈ l.eraseReps) :
    x ∈ l := by
  cases l with
  | nil => cases h
  | cons a l =>
    induction l generalizing a with
    | nil => exact h
    | cons b l ih =>
      rw [eraseReps_cons_cons] at h
      split at h
      · rcases List.mem_cons.mp (ih a h) with rfl | h
        · exact List.mem_cons_self
        · exact List.mem_cons_of_mem _ (List.mem_cons_of_mem _ h)
      · rcases List.mem_cons.mp h with rfl | h
        · exact List.mem_cons_self
        · exact List.mem_cons_of_mem _ (ih b h)

theorem mem_eraseReps {α : Type*} [BEq α] [LawfulBEq α] {x : α} {l : List α} :
    x ∈ l.eraseReps ↔ x ∈ l := by
  refine ⟨mem_of_mem_eraseReps, fun h => ?_⟩
  cases l with
  | nil => exact h
  | cons a l =>
    induction l generalizing a with
    | nil => exact h
    | cons b l ih =>
      rw [eraseReps_cons_cons]
      split
      · rename_i heq
        rw [← eq_of_beq heq] at h
        exact ih a (by simpa using h)
      · rcases List.mem_cons.mp h with rfl | h
        · exact List.mem_cons_self
        · exact List.mem_cons_of_mem _ (ih b h)

theorem eraseReps_sublist {α : Type*} [BEq α] (l : List α) : l.eraseReps.Sublist l := by
  cases l with
  | nil => exact .slnil
  | cons a l =>
    induction l generalizing a with
    | nil => exact .refl _
    | cons b l ih =>
      rw [eraseReps_cons_cons]
      split
      · exact (ih a).trans ((List.sublist_cons_self b l).cons_cons a)
      · exact (ih b).cons_cons a

/-- In a list in order, equal members stand side by side, so each is left once. -/
theorem nodup_eraseReps {α : Type*} [BEq α] [LawfulBEq α] {r : α → α → Prop} [Std.Antisymm r]
    {l : List α} (h : l.Pairwise r) : l.eraseReps.Nodup := by
  cases l with
  | nil => exact List.nodup_nil
  | cons a l =>
    induction l generalizing a with
    | nil => exact List.nodup_singleton a
    | cons b l ih =>
      rw [eraseReps_cons_cons]
      obtain ⟨ha, hl⟩ := List.pairwise_cons.mp h
      split
      · rename_i heq
        rw [eq_of_beq heq]
        exact ih b hl
      · rename_i hne
        have hne : a ≠ b := by simpa using hne
        refine List.nodup_cons.mpr ⟨fun hmem => ?_, ih b hl⟩
        rcases List.mem_cons.mp (mem_of_mem_eraseReps hmem) with rfl | hmem
        · exact hne rfl
        · have hb := (List.pairwise_cons.mp hl).1 a hmem
          exact hne (Std.Antisymm.antisymm a b (ha b List.mem_cons_self) hb)

theorem nodup_eraseDups {α : Type*} [BEq α] [LawfulBEq α] : (l : List α) → l.eraseDups.Nodup
  | [] => by simp
  | a :: l => by
    rw [List.eraseDups_cons, List.nodup_cons, List.mem_eraseDups]
    exact ⟨by simp, nodup_eraseDups (l.filter fun b => !b == a)⟩
termination_by l => l.length
decreasing_by exact Nat.lt_succ_of_le (List.length_filter_le _ _)

theorem sum_count_eraseDups {α : Type*} [DecidableEq α] (l : List α) :
    (l.eraseDups.map fun a => l.count a).sum = l.length := by
  have hperm : l.eraseDups.Perm l.dedup := by
    refine (List.perm_ext_iff_of_nodup (nodup_eraseDups l) l.nodup_dedup).mpr fun a => ?_
    rw [List.mem_eraseDups, List.mem_dedup]
  rw [(hperm.map _).sum_eq]
  exact List.sum_map_count_dedup_eq_length l

/-! ## Order of first appearance -/

/-- Leaving members out does not change which of two others comes first. -/
theorem idxOf_lt_idxOf_of_filter {α : Type*} [DecidableEq α] {p : α → Bool} {l : List α} {a b : α}
    (ha : p a = true) (hb : p b = true) (h : (l.filter p).idxOf a < (l.filter p).idxOf b) :
    l.idxOf a < l.idxOf b := by
  induction l with
  | nil => simp at h
  | cons x l ih =>
    by_cases hax : x = a
    · subst hax
      have hne : x ≠ b := by
        rintro rfl
        exact Nat.lt_irrefl _ h
      rw [List.idxOf_cons_self, List.idxOf_cons_ne l hne]
      exact Nat.succ_pos _
    · have hbx : x ≠ b := by
        rintro rfl
        rw [List.filter_cons_of_pos hb, List.idxOf_cons_self] at h
        exact Nat.not_lt_zero _ h
      have hrest : (l.filter p).idxOf a < (l.filter p).idxOf b := by
        by_cases hx : p x
        · rwa [List.filter_cons_of_pos hx, List.idxOf_cons_ne _ hax, List.idxOf_cons_ne _ hbx,
            Nat.succ_lt_succ_iff] at h
        · rwa [List.filter_cons_of_neg hx] at h
      rw [List.idxOf_cons_ne l hax, List.idxOf_cons_ne l hbx]
      exact Nat.succ_lt_succ (ih hrest)

/-- The members that are kept come in the order of their first places. -/
theorem pairwise_idxOf_eraseDups {α : Type*} [DecidableEq α] :
    (l : List α) → l.eraseDups.Pairwise fun a b => l.idxOf a < l.idxOf b
  | [] => by simp
  | a :: l => by
    have hmem : ∀ b ∈ (l.filter fun b => !b == a).eraseDups, b ≠ a := by
      intro b hb
      simpa using (List.mem_filter.mp (List.mem_eraseDups.mp hb)).2
    rw [List.eraseDups_cons, List.pairwise_cons]
    refine ⟨fun b hb => ?_, (pairwise_idxOf_eraseDups _).imp_of_mem fun {b c} hb hc hlt => ?_⟩
    · rw [List.idxOf_cons_self, List.idxOf_cons_ne l (hmem b hb).symm]
      exact Nat.succ_pos _
    · rw [List.idxOf_cons_ne l (hmem b hb).symm, List.idxOf_cons_ne l (hmem c hc).symm]
      refine Nat.succ_lt_succ (idxOf_lt_idxOf_of_filter ?_ ?_ hlt)
      · simpa using hmem b hb
      · simpa using hmem c hc
termination_by l => l.length
decreasing_by exact Nat.lt_succ_of_le (List.length_filter_le _ _)

/-! ## Groups -/

theorem perm_flatMap_filter {α β : Type*} [DecidableEq β] (key : α → β) {ks : List β} (h : ks.Nodup)
    (l : List α) : (ks.flatMap fun k => l.filter (key · = k)).Perm (l.filter (key · ∈ ks)) := by
  induction ks with
  | nil => simp
  | cons k ks ih =>
    obtain ⟨hk, hks⟩ := List.nodup_cons.mp h
    -- those with the first key, and those with another, which do not have the first
    have hsplit := List.filter_append_perm (key · = k) (l.filter (key · ∈ k :: ks))
    have hfirst : (l.filter (key · ∈ k :: ks)).filter (key · = k) = l.filter (key · = k) := by
      rw [List.filter_filter]
      refine List.filter_congr fun x _ => ?_
      by_cases hx : key x = k <;> simp [hx]
    have hothers : (l.filter (key · ∈ k :: ks)).filter (fun x => !(key x = k)) =
        l.filter (key · ∈ ks) := by
      rw [List.filter_filter]
      refine List.filter_congr fun x _ => ?_
      by_cases hx : key x = k <;> simp [hx, hk]
    rw [hfirst, hothers] at hsplit
    exact ((ih hks).append_left _).trans hsplit

/-- Grouping by a key neither loses nor repeats members. -/
theorem perm_groups {α β : Type*} [DecidableEq β] (key : α → β) (l : List α) :
    ((l.map key).eraseDups.flatMap fun k => l.filter (key · = k)).Perm l := by
  have hall : l.filter (key · ∈ (l.map key).eraseDups) = l := by
    refine List.filter_eq_self.mpr fun x hx => ?_
    simpa [List.mem_eraseDups] using ⟨x, hx, rfl⟩
  have hgroups := perm_flatMap_filter key (nodup_eraseDups (l.map key)) l
  rwa [hall] at hgroups

end Layering
