import Layering.Text.Surrogate
import Mathlib.Data.List.Chain
import Mathlib.Data.Nat.Notation

/-!
# What lone surrogates are kept as

A character has its own number, or stands for a surrogate and has the number of that
(`codePoint_cases`). Nothing is lost by this: the character can be had back from the number
(`ofCodePoint_codePoint`), so texts with the same numbers are the same (`codePoints_injective`), and
the order of texts by their numbers takes no two of them for one. What is lost where a text is cut into
16-bit units is told by its split pairs (`HasNoSplitPair`): two halves in a row cannot be told from the
character that they make up.
-/

namespace Layering.Text

/-- No character has the number of a surrogate. -/
theorem toNat_valid (c : Char) : c.toNat < 0xd800 ∨ 0xdfff < c.toNat ∧ c.toNat < 0x110000 := c.valid

theorem isSurrogate_iff {n : ℕ} : isSurrogate n = true ↔ 0xd800 ≤ n ∧ n < 0xe000 := by
  rw [isSurrogate, Bool.and_eq_true, decide_eq_true_iff, decide_eq_true_iff]

/-- The two kinds of characters: those that have their own number, and those that stand for a
surrogate. -/
theorem codePoint_cases (c : Char) :
    surrogate? c = none ∧ codePoint c = c.toNat ∨
      surrogate? c = some (codePoint c) ∧ isSurrogate (codePoint c) = true ∧
        c.toNat = codePoint c + surrogateShift := by
  by_cases h : (surrogateShift ≤ c.toNat && isSurrogate (c.toNat - surrogateShift)) = true
  · have hsome : surrogate? c = some (c.toNat - surrogateShift) := if_pos h
    rw [Bool.and_eq_true, decide_eq_true_iff] at h
    rw [codePoint, hsome, Option.getD_some]
    exact .inr ⟨rfl, h.2, (Nat.sub_add_cancel h.1).symm⟩
  · have hnone : surrogate? c = none := if_neg h
    rw [codePoint, hnone]
    exact .inl ⟨rfl, rfl⟩

theorem codePoint_le (c : Char) : codePoint c ≤ c.toNat := by
  rcases codePoint_cases c with ⟨-, h⟩ | ⟨-, -, h⟩
  · exact Nat.le_of_eq h
  · rw [h]
    exact Nat.le_add_right _ _

/-- A character below those that stand for surrogates has its own number. -/
theorem codePoint_of_lt {c : Char} (h : c.toNat < surrogateShift) : codePoint c = c.toNat := by
  rcases codePoint_cases c with ⟨-, hc⟩ | ⟨-, -, hc⟩
  · exact hc
  · rw [hc] at h
    exact absurd (Nat.le_add_left _ _) (Nat.not_le_of_lt h)

/-- **A character can be had back from its number.** -/
theorem ofCodePoint_codePoint (c : Char) : ofCodePoint (codePoint c) = c := by
  rcases codePoint_cases c with ⟨-, hc⟩ | ⟨-, hsurrogate, hc⟩
  · have hvalid := toNat_valid c
    have hnone : ¬isSurrogate (codePoint c) = true := by
      rw [isSurrogate_iff, hc]
      omega
    rw [ofCodePoint, if_neg hnone, hc, Char.ofNat_toNat]
  · rw [ofCodePoint, if_pos hsurrogate, ← hc, Char.ofNat_toNat]

theorem codePoint_injective {c d : Char} (h : codePoint c = codePoint d) : c = d := by
  rw [← ofCodePoint_codePoint c, h, ofCodePoint_codePoint]

theorem codePoints_injective {s t : String} (h : codePoints s = codePoints t) : s = t :=
  String.toList_inj.mp ((List.map_inj_right fun _ _ => codePoint_injective).mp h)

/-! ## Split pairs -/

/-- A character that stands for the first half of a pair. -/
def IsHigh (c : Char) : Prop := 0xd800 ≤ codePoint c ∧ codePoint c < 0xdc00

instance (c : Char) : Decidable (IsHigh c) := inferInstanceAs (Decidable (_ ∧ _))

/-- A character that stands for the second half of a pair. -/
def IsLow (c : Char) : Prop := 0xdc00 ≤ codePoint c ∧ codePoint c < 0xe000

instance (c : Char) : Decidable (IsLow c) := inferInstanceAs (Decidable (_ ∧ _))

/-- No first half of a pair stands directly before a second half. -/
def HasNoSplitPair (s : List Char) : Prop := s.IsChain fun c d => ¬(IsHigh c ∧ IsLow d)

instance (s : List Char) : Decidable (HasNoSplitPair s) := inferInstanceAs (Decidable (s.IsChain _))

end Layering.Text
