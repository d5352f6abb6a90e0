import Layering.Value.Basic
import Mathlib.Tactic.Common

/-!
# Fields of maps

A key is the same as a text only if it is that text (`same_text_iff`). So writing a value under a
text, and leaving a text out, change the field of that name and no other.
-/

namespace Layering.Entries

variable {entries : List (Scalar × Value)} {name other : String} {v : Value}

theorem same_text_iff {k : Scalar} : k.same (.text name) = true ↔ k = .text name := by
  cases k <;> simp [Scalar.same, Scalar.integer?]

theorem not_same_text_of_ne (h : name ≠ other) {k : Scalar} (hk : k.same (.text other) = true) :
    ¬k.same (.text name) = true := by
  rw [same_text_iff.mp hk, same_text_iff]
  exact fun heq => h (Scalar.text.inj heq).symm

theorem field?_cons (k : Scalar) (v : Value) (entries : List (Scalar × Value)) (name : String) :
    field? name ((k, v) :: entries) =
      if k.same (.text name) then some v else field? name entries := by
  simp only [field?, get?, List.find?_cons]
  split <;> simp_all

theorem mem_of_field? (h : field? name entries = some v) : (Scalar.text name, v) ∈ entries := by
  obtain ⟨⟨k, w⟩, hfind, rfl⟩ := Option.map_eq_some_iff.mp h
  have hsame := List.find?_some hfind
  obtain rfl : k = .text name := same_text_iff.mp hsame
  exact List.mem_of_find?_eq_some hfind

/-- There is a field under every text that is a key. -/
theorem exists_field? (h : (Scalar.text name, v) ∈ entries) : ∃ w, field? name entries = some w := by
  have hsome : (entries.find? fun e => e.1.same (.text name)).isSome = true :=
    List.find?_isSome.mpr ⟨_, h, same_text_iff.mpr rfl⟩
  obtain ⟨e, he⟩ := Option.isSome_iff_exists.mp hsome
  exact ⟨e.2, Option.map_eq_some_iff.mpr ⟨e, he, rfl⟩⟩

/-- What is written under a text is found there. -/
theorem field?_insert_self : field? name (insert (.text name) v entries) = some v := by
  induction entries with
  | nil => simp [insert, field?_cons, same_text_iff]
  | cons e entries ih =>
    obtain ⟨k, w⟩ := e
    rw [insert]
    split
    · rename_i hk
      rw [field?_cons, if_pos hk]
    · rename_i hk
      rw [field?_cons, if_neg hk, ih]

/-- Other fields stay as they are. -/
theorem field?_insert_of_ne (h : name ≠ other) :
    field? name (insert (.text other) v entries) = field? name entries := by
  induction entries with
  | nil => rw [insert, field?_cons, if_neg (not_same_text_of_ne h (same_text_iff.mpr rfl))]
  | cons e entries ih =>
    obtain ⟨k, w⟩ := e
    rw [insert]
    split
    · rename_i hk
      have hne := not_same_text_of_ne h hk
      rw [field?_cons, field?_cons, if_neg hne, if_neg hne]
    · rw [field?_cons, field?_cons, ih]

/-- Leaving out the entries under a text does not change other fields. -/
theorem field?_filter_of_ne (h : name ≠ other) :
    field? name (entries.filter fun (k, _) => !k.same (.text other)) = field? name entries := by
  induction entries with
  | nil => rfl
  | cons e entries ih =>
    obtain ⟨k, w⟩ := e
    by_cases hk : k.same (.text other) = true
    · have hne := not_same_text_of_ne h hk
      rw [List.filter_cons_of_neg (by simpa using hk), field?_cons, if_neg hne, ih]
    · rw [List.filter_cons_of_pos (by simpa using hk), field?_cons, field?_cons, ih]

theorem mem_keys_insert {key k : Scalar} (h : k ∈ (insert key v entries).map (·.1)) :
    k = key ∨ k ∈ entries.map (·.1) := by
  induction entries with
  | nil => exact .inl (List.mem_singleton.mp h)
  | cons e entries ih =>
    obtain ⟨k', w⟩ := e
    rw [insert] at h
    split at h
    · exact .inr h
    · rw [List.map_cons, List.mem_cons] at h ⊢
      rcases h with rfl | h
      · exact .inr (.inl rfl)
      · exact (ih h).imp id .inr

theorem notMem_keys_insert {key k : Scalar} (hne : k ≠ key) (h : k ∉ entries.map (·.1)) :
    k ∉ (insert key v entries).map (·.1) := by
  intro hmem
  rcases mem_keys_insert hmem with heq | hmem
  · exact hne heq
  · exact h hmem

end Layering.Entries
