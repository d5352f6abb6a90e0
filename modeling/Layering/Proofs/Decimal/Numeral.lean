import Layering.Decimal.Shortest
import Mathlib.Algebra.Order.Ring.Nat
import Mathlib.Tactic.Linarith
import Mathlib.Tactic.Ring

/-!
# The texts of numbers

What can be said of the text of a number without reading it back: it is made of decimal digits, a
point, signs and the letter of the exponent, and the text of a number other than zero has a digit
other than zero. For binary numbers the second fact rests on the search for the shortest decimal:
every grid that it accepts, and the seventeen digits it falls back to, give a decimal other than
zero (`shortest_digits_ne_zero`).
-/

namespace Layering.Decimal

/-- A character that the text of a finite number may have. -/
def IsNumeral (c : Char) : Prop := c.isDigit = true ∨ c ∈ ['.', '-', '+', 'e']

instance (c : Char) : Decidable (IsNumeral c) := inferInstanceAs (Decidable (_ ∨ _))

/-- A text with a digit other than zero. -/
def HasNonzeroDigit (t : List Char) : Prop := ∃ c ∈ t, c.isDigit = true ∧ c ≠ '0'

/-! ## Naturals and integers -/

theorem isNumeral_of_mem_toDigits {n : ℕ} {c : Char} (h : c ∈ Nat.toDigits 10 n) : IsNumeral c :=
  .inl (Nat.isDigit_of_mem_toDigits (by decide) (by decide) h)

theorem digitChar_ne_zero : ∀ n < 10, n ≠ 0 → n.digitChar.isDigit = true ∧ n.digitChar ≠ '0' := by
  decide

theorem hasNonzeroDigit_toDigits {n : ℕ} (hn : n ≠ 0) : HasNonzeroDigit (Nat.toDigits 10 n) := by
  induction n using Nat.strongRecOn with
  | ind n ih =>
    rw [Nat.toDigits_eq_if (by decide)]
    split
    · rename_i hlt
      exact ⟨n.digitChar, by simp, digitChar_ne_zero n hlt hn⟩
    · obtain ⟨c, hc, hdigit⟩ := ih (n / 10) (by omega) (by omega)
      exact ⟨c, List.mem_append_left _ hc, hdigit⟩

theorem toList_toString_int (n : ℤ) :
    (toString n).toList = (if n < 0 then ['-'] else []) ++ Nat.toDigits 10 n.natAbs := by
  rw [Int.toString_eq_repr, Int.repr_eq_if]
  split
  · rename_i h
    rw [if_neg (by omega), Nat.toList_repr, show n.natAbs = n.toNat by omega, List.nil_append]
  · rename_i h
    rw [if_pos (by omega), String.toList_append, Nat.toList_repr,
      show n.natAbs = (-n).toNat by omega]
    rfl

theorem isNumeral_of_mem_toString_int {n : ℤ} {c : Char} (h : c ∈ (toString n).toList) :
    IsNumeral c := by
  rw [toList_toString_int] at h
  rcases List.mem_append.mp h with h | h
  · split at h
    · exact .inr (by simp [List.mem_singleton.mp h])
    · cases h
  · exact isNumeral_of_mem_toDigits h

theorem hasNonzeroDigit_toString_int {n : ℤ} (hn : n ≠ 0) :
    HasNonzeroDigit (toString n).toList := by
  obtain ⟨c, hc, hdigit⟩ := hasNonzeroDigit_toDigits (Int.natAbs_ne_zero.mpr hn)
  exact ⟨c, by rw [toList_toString_int]; exact List.mem_append_right _ hc, hdigit⟩

/-! ## Decimals -/

theorem isNumeral_of_mem_text {d : Digits} {c : Char} (h : c ∈ d.text) : IsNumeral c := by
  have hzero : IsNumeral '0' := .inl (by decide)
  have hpoint : IsNumeral '.' := .inr (by decide)
  have hall : ∀ c ∈ Nat.toDigits 10 d.digits, IsNumeral c := fun c => isNumeral_of_mem_toDigits
  unfold Digits.text at h
  dsimp only at h
  generalize Nat.toDigits 10 d.digits = ds at h hall
  split at h
  · simp only [List.mem_append, List.mem_cons, List.not_mem_nil, or_false, List.mem_replicate] at h
    rcases h with ((h | rfl | rfl) | ⟨-, rfl⟩) | h
    · split at h
      · cases h
      · exact hall c h
      · simp only [List.mem_cons] at h
        rcases h with rfl | rfl | h
        · exact hall _ (by simp)
        · exact hpoint
        · exact hall c (by simp [h])
    · exact .inr (by decide)
    · split
      · exact .inr (by decide)
      · exact .inr (by decide)
    · exact hzero
    · exact isNumeral_of_mem_toDigits h
  · split at h
    · simp only [List.mem_cons, List.mem_append, List.mem_replicate, List.cons_append] at h
      rcases h with rfl | rfl | ⟨-, rfl⟩ | h
      · exact hzero
      · exact hpoint
      · exact hzero
      · exact hall c h
    · split at h
      · simp only [List.mem_append, List.mem_replicate, List.mem_cons, List.not_mem_nil,
          or_false] at h
        rcases h with (h | ⟨-, rfl⟩) | rfl | rfl
        · exact hall c h
        · exact hzero
        · exact hpoint
        · exact hzero
      · simp only [List.mem_append, List.mem_cons] at h
        rcases h with h | rfl | h
        · exact hall c (List.mem_of_mem_take h)
        · exact hpoint
        · exact hall c (List.mem_of_mem_drop h)

/-- The text of a decimal shows all its digits. -/
theorem mem_text_of_mem_toDigits {d : Digits} {c : Char} (h : c ∈ Nat.toDigits 10 d.digits) :
    c ∈ d.text := by
  unfold Digits.text
  dsimp only
  generalize Nat.toDigits 10 d.digits = ds at h
  split
  · simp only [List.mem_append]
    refine .inl (.inl (.inl ?_))
    split
    · exact h
    · exact h
    · simp only [List.mem_cons] at h ⊢
      exact h.imp_right .inr
  · split
    · simp [h]
    · split
      · simp [h]
      · rw [← List.take_append_drop d.point.toNat ds, List.mem_append] at h
        simp only [List.mem_append, List.mem_cons]
        exact h.imp_right .inr

/-! ## The shortest decimal of a number other than zero -/

theorem readsBack_zero {m : ℕ} (hm : m ≠ 0) (e g : ℤ) : readsBack m e 0 g = false := by
  have hlow : 0 < if m = 2 ^ 52 ∧ e > -1074 then 4 * m - 1 else 4 * m - 2 := by split <;> omega
  have hunit : 0 < 2 ^ (e - 2).toNat * 10 ^ (-g).toNat := by positivity
  have hprod := Nat.mul_pos hlow hunit
  unfold readsBack
  simp only [Nat.pow_eq]
  split
  · simp only [zero_mul, Bool.and_eq_false_iff, decide_eq_false_iff_not]
    exact .inl (by omega)
  · simp

theorem div_le_roundDiv (num den : ℕ) : num / den ≤ roundDiv num den := by
  unfold roundDiv
  dsimp only
  split <;> [exact le_rfl; split <;> [omega; split <;> omega]]

/-- Zero reads back as no number but zero, so a grid that has a decimal for the number has one other
than zero. -/
theorem ne_zero_of_onGrid? {m c : ℕ} {e g : ℤ} (hm : m ≠ 0) (h : onGrid? m e g = some c) :
    c ≠ 0 := by
  rintro rfl
  unfold onGrid? at h
  simp only [Nat.pow_eq] at h
  generalize hnum : m * 2 ^ e.toNat * 10 ^ (-g).toNat = num at h
  generalize hden : 2 ^ (-e).toNat * 10 ^ g.toNat = den at h
  have hbelow : readsBack m e (num / den) g = true → num / den ≠ 0 := by
    intro hread hzero
    rw [hzero, readsBack_zero hm] at hread
    cases hread
  split at h
  · rename_i hread _
    have hround := div_le_roundDiv num den
    rw [Option.some.inj h] at hround
    exact hbelow hread (Nat.le_zero.mp hround)
  · rename_i hread _
    exact hbelow hread (Option.some.inj h)
  · exact Nat.succ_ne_zero _ (Option.some.inj h)
  · cases h

/-- The ratio `num / den` is at least `10 ^ k`. -/
def AtLeastPower (num den : ℕ) (k : ℤ) : Prop := den * 10 ^ k.toNat ≤ num * 10 ^ (-k).toNat

theorem AtLeastPower.sub {num den : ℕ} {k : ℤ} (h : AtLeastPower num den k) (n : ℕ) :
    AtLeastPower num den (k - n) := by
  induction n with
  | zero => simpa using h
  | succ n ih =>
    unfold AtLeastPower at ih ⊢
    rcases lt_or_ge 0 (k - n) with hpos | hneg
    · rw [show (k - n).toNat = (k - (n + 1 : ℕ)).toNat + 1 by omega, pow_succ,
        show (-(k - n)).toNat = 0 by omega] at ih
      rw [show (-(k - (n + 1 : ℕ))).toNat = 0 by omega]
      have := Nat.zero_le (den * 10 ^ (k - (n + 1 : ℕ)).toNat)
      nlinarith
    · rw [show (k - n).toNat = 0 by omega] at ih
      rw [show (k - (n + 1 : ℕ)).toNat = 0 by omega,
        show (-(k - (n + 1 : ℕ))).toNat = (-(k - n)).toNat + 1 by omega, pow_succ]
      nlinarith

theorem le_of_length_toDigits {n k : ℕ} (hn : n ≠ 0) (h : (Nat.toDigits 10 n).length = k + 1) :
    10 ^ k ≤ n := by
  by_contra hlt
  rcases Nat.eq_zero_or_pos k with rfl | hk
  · omega
  · have := (Nat.length_toDigits_le_iff (by decide) hk).mpr (not_le.mp hlt)
    omega

theorem lt_pow_length_toDigits (n : ℕ) : n < 10 ^ (Nat.toDigits 10 n).length :=
  (Nat.length_toDigits_le_iff (by decide) Nat.length_toDigits_pos).mp le_rfl

theorem atLeastPower_scale {num : ℕ} (hnum : num ≠ 0) (den : ℕ) :
    AtLeastPower num den (scale num den - 1) := by
  unfold scale
  simp only [Nat.pow_eq]
  split
  · rename_i h
    rwa [add_sub_cancel_right]
  · -- the denominator is below the power of ten after its digits, the numerator not below its own
    obtain ⟨a, ha⟩ : ∃ a, (Nat.toDigits 10 num).length = a + 1 :=
      ⟨_, (Nat.succ_pred_eq_of_pos Nat.length_toDigits_pos).symm⟩
    have hnum' := le_of_length_toDigits hnum ha
    have hden := lt_pow_length_toDigits den
    rw [ha]
    generalize (Nat.toDigits 10 den).length = b at hden
    unfold AtLeastPower
    rcases le_total b a with hba | hab
    · rw [show (((a + 1 : ℕ) : ℤ) - b - 1).toNat = a - b by omega,
        show (-(((a + 1 : ℕ) : ℤ) - b - 1)).toNat = 0 by omega]
      calc den * 10 ^ (a - b) ≤ 10 ^ b * 10 ^ (a - b) := Nat.mul_le_mul_right _ hden.le
        _ = 10 ^ a := by rw [← pow_add, Nat.add_sub_cancel' hba]
        _ ≤ num * 10 ^ 0 := by simpa using hnum'
    · rw [show (((a + 1 : ℕ) : ℤ) - b - 1).toNat = 0 by omega,
        show (-(((a + 1 : ℕ) : ℤ) - b - 1)).toNat = b - a by omega]
      calc den * 10 ^ 0 ≤ 10 ^ b := by simpa using hden.le
        _ = 10 ^ a * 10 ^ (b - a) := by rw [← pow_add, Nat.add_sub_cancel' hab]
        _ ≤ num * 10 ^ (b - a) := Nat.mul_le_mul_right _ hnum'

theorem dropZeros_ne_zero {n : ℕ} (hn : n ≠ 0) (fuel : ℕ) : dropZeros fuel n ≠ 0 := by
  induction fuel generalizing n with
  | zero => exact hn
  | succ fuel ih =>
    rw [dropZeros]
    split
    · exact ih (by omega)
    · exact hn

/-- **A number other than zero has a shortest decimal other than zero.** -/
theorem shortest_digits_ne_zero {m : ℕ} (hm : m ≠ 0) (e : ℤ) : (shortest m e).digits ≠ 0 := by
  have hnum : m * 2 ^ e.toNat ≠ 0 := mul_ne_zero hm (by positivity)
  unfold shortest
  simp only [Binary64.ratio, Nat.pow_eq]
  generalize hk : scale (m * 2 ^ e.toNat) (2 ^ (-e).toNat) = k
  apply dropZeros_ne_zero
  cases hfound : ((List.range 17).map fun (n : ℕ) => k - ((n + 1 : ℕ) : ℤ)).findSome?
      fun g => (onGrid? m e g).map (·, g) with
  | none =>
    have hlow : AtLeastPower (m * 2 ^ e.toNat) (2 ^ (-e).toNat) (k - 17) := by
      have := (atLeastPower_scale hnum (2 ^ (-e).toNat)).sub 16
      rwa [hk, show k - 1 - ((16 : ℕ) : ℤ) = k - 17 by omega] at this
    unfold AtLeastPower at hlow
    rw [neg_sub] at hlow
    exact (Nat.div_pos hlow (by positivity)).ne'
  | some found =>
    obtain ⟨g, -, hg⟩ := List.exists_of_findSome?_eq_some hfound
    obtain ⟨c, hc, rfl⟩ := Option.map_eq_some_iff.mp hg
    exact ne_zero_of_onGrid? hm hc

/-! ## Binary numbers -/

theorem isNumeral_of_mem_text_finite {negative : Bool} {m : ℕ} {e : ℤ} {c : Char}
    (h : c ∈ (Binary64.finite negative m e).text) : IsNumeral c := by
  rw [Binary64.text, List.mem_append] at h
  rcases h with h | h
  · split at h
    · exact .inr (by simp [List.mem_singleton.mp h])
    · cases h
  · split at h
    · simp only [List.mem_cons, List.not_mem_nil, or_false] at h
      rcases h with rfl | rfl | rfl
      · exact .inl (by decide)
      · exact .inr (by decide)
      · exact .inl (by decide)
    · exact isNumeral_of_mem_text h

theorem hasNonzeroDigit_text_finite {negative : Bool} {m : ℕ} {e : ℤ} (hm : m ≠ 0) :
    HasNonzeroDigit (Binary64.finite negative m e).text := by
  obtain ⟨c, hc, hdigit⟩ := hasNonzeroDigit_toDigits (shortest_digits_ne_zero hm e)
  refine ⟨c, ?_, hdigit⟩
  rw [Binary64.text, if_neg hm]
  exact List.mem_append_right _ (mem_text_of_mem_toDigits hc)

end Layering.Decimal
