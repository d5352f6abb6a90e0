import Layering.Graph.Cycle
import Mathlib.Data.List.Rotate
import Mathlib.Data.String.Basic

/-!
# Keys of cycles

The key of a cycle is made of its nodes, rotated so that the least of them comes first. Among nodes
that differ from each other the least one stands at one place only, so all rotations of a list of
nodes are rotated to the same list (`rotateToLeast_eq_of_isRotated`) and cycles that are rotations
of each other have the same key (`key_eq_of_isRotated`).
-/

namespace Layering.Cycle

/-! ## The least node -/

theorem least?_eq_none_iff {nodes : List String} : least? nodes = none ↔ nodes = [] := by
  cases nodes <;> simp [least?]

theorem foldl_least_spec (ns : List String) (n : String) :
    ns.foldl (fun m k => if k < m then k else m) n ∈ n :: ns ∧
      ∀ k ∈ n :: ns, ns.foldl (fun m k => if k < m then k else m) n ≤ k := by
  induction ns generalizing n with
  | nil => simp
  | cons a ns ih =>
    obtain ⟨hmem, hle⟩ := ih (if a < n then a else n)
    rw [List.foldl_cons]
    have hfirst := hle _ List.mem_cons_self
    refine ⟨?_, fun k hk => ?_⟩
    · rcases List.mem_cons.mp hmem with h | h
      · rw [h]
        split <;> simp
      · exact List.mem_cons_of_mem _ (List.mem_cons_of_mem _ h)
    · rcases List.mem_cons.mp hk with rfl | hk
      · refine hfirst.trans ?_
        split
        · exact le_of_lt ‹_›
        · exact le_rfl
      · rcases List.mem_cons.mp hk with rfl | hk
        · refine hfirst.trans ?_
          split
          · exact le_rfl
          · exact le_of_not_gt ‹_›
        · exact hle k (List.mem_cons_of_mem _ hk)

/-- The least node is a node, and at most every other. -/
theorem least?_spec {nodes : List String} {m : String} (h : least? nodes = some m) :
    m ∈ nodes ∧ ∀ k ∈ nodes, m ≤ k := by
  cases nodes with
  | nil => simp [least?] at h
  | cons n ns =>
    simp only [least?, Option.some.injEq] at h
    rw [← h]
    exact foldl_least_spec ns n

/-- Lists of the same nodes have the same least node. -/
theorem least?_eq_of_mem_iff {l l' : List String} (h : ∀ n, n ∈ l ↔ n ∈ l') :
    least? l = least? l' := by
  cases hl : least? l with
  | none =>
    rw [least?_eq_none_iff] at hl
    subst hl
    rw [eq_comm, least?_eq_none_iff, List.eq_nil_iff_forall_not_mem]
    exact fun n hn => by simpa using (h n).mpr hn
  | some m =>
    obtain ⟨hm, hle⟩ := least?_spec hl
    cases hl' : least? l' with
    | none =>
      rw [least?_eq_none_iff] at hl'
      subst hl'
      simpa using (h m).mp hm
    | some m' =>
      obtain ⟨hm', hle'⟩ := least?_spec hl'
      rw [le_antisymm (hle m' ((h m').mpr hm')) (hle' m ((h m).mp hm))]

/-! ## Rotations -/

/-- Dropping the nodes before a given one leaves what follows its first place. -/
theorem exists_dropWhile_eq {nodes : List String} {a : String} (h : a ∈ nodes) :
    ∃ front back, nodes = front ++ a :: back ∧ nodes.dropWhile (· ≠ a) = a :: back := by
  obtain ⟨front, back, rfl, hfront⟩ := List.eq_append_cons_of_mem h
  refine ⟨front, back, rfl, ?_⟩
  rw [List.dropWhile_append_of_pos]
  · simp
  · intro k hk
    simpa using fun hka : k = a => hfront (hka ▸ hk)

theorem isRotated_rotateToLeast (nodes : List String) : rotateToLeast nodes ~r nodes := by
  unfold rotateToLeast
  split
  · rename_i h
    rw [least?_eq_none_iff.mp h]
  · rename_i m _
    have h := List.takeWhile_append_dropWhile (p := (· ≠ m)) (l := nodes)
    conv_rhs => rw [← h]
    exact List.isRotated_append

theorem head?_rotateToLeast (nodes : List String) :
    (rotateToLeast nodes).head? = least? nodes := by
  unfold rotateToLeast
  split
  · rename_i h
    rw [h]; rfl
  · rename_i m h
    obtain ⟨front, back, -, hdrop⟩ := exists_dropWhile_eq (least?_spec h).1
    rw [h, hdrop, List.cons_append, List.head?_cons]

/-- Rotations of a list without repetition that start alike are the same. -/
theorem eq_of_isRotated_of_head? {l l' : List String} (hr : l ~r l') (hl : l.Nodup)
    (hh : l.head? = l'.head?) : l = l' := by
  obtain ⟨n, rfl⟩ := hr
  rcases eq_or_ne l [] with rfl | hne
  · simp
  · have hpos : 0 < l.length := List.length_pos_iff.mpr hne
    have hlt : n % l.length < l.length := Nat.mod_lt _ hpos
    rw [← List.rotate_mod] at hh ⊢
    rw [List.head?_rotate hlt, List.head?_eq_getElem?, List.getElem?_eq_getElem hpos,
      List.getElem?_eq_getElem hlt, Option.some.injEq] at hh
    rw [← (List.Nodup.getElem_inj_iff hl).mp hh, List.rotate_zero]

theorem rotateToLeast_eq_of_isRotated {l l' : List String} (hr : l ~r l') (hl : l.Nodup) :
    rotateToLeast l = rotateToLeast l' := by
  have hrot : rotateToLeast l ~r rotateToLeast l' :=
    (isRotated_rotateToLeast l).trans (hr.trans (isRotated_rotateToLeast l').symm)
  refine eq_of_isRotated_of_head? hrot ((isRotated_rotateToLeast l).nodup_iff.mpr hl) ?_
  rw [head?_rotateToLeast, head?_rotateToLeast]
  exact least?_eq_of_mem_iff fun n => hr.mem_iff

/-- **Cycles that are rotations of each other have the same key.** -/
theorem key_eq_of_isRotated {c d : List String} (hr : c.dropLast ~r d.dropLast)
    (hc : c.dropLast.Nodup) : key c = key d := by
  unfold key
  rw [rotateToLeast_eq_of_isRotated hr hc]

end Layering.Cycle
