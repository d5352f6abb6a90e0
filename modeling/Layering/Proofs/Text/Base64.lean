import Layering.Text.Base64
import Mathlib.Tactic.Common

/-!
# Reading base 64

Bytes are written by cutting them into numbers below sixty-four, four of them for three bytes
(`encode_eq_map`), and the bytes can be put together from these numbers (`bytes?_sextets`). A text that is
filled up to whole groups of four is read back by the decoder that asks for this
(`decodeLoose?_filled_encode`).
-/

namespace Layering.Base64

variable {a : Alphabet}

/-- The numbers below sixty-four that bytes are cut into. -/
def sextets : List UInt8 → List ℕ
  | x :: y :: z :: r =>
    let n := (x.toNat * 256 + y.toNat) * 256 + z.toNat
    n / 262144 :: n / 4096 % 64 :: n / 64 % 64 :: n % 64 :: sextets r
  | [x, y] =>
    let n := (x.toNat * 256 + y.toNat) * 4
    [n / 4096, n / 64 % 64, n % 64]
  | [x] =>
    let n := x.toNat * 16
    [n / 64, n % 64]
  | [] => []

theorem encode_eq_map (bs : List UInt8) : encode a bs = (sextets bs).map (digit a) := by
  fun_induction sextets bs with
  | case1 x y z r n ih => rw [encode, ih]; rfl
  | case2 x y n => rfl
  | case3 x n => rfl
  | case4 => rfl

theorem length_sextets (bs : List UInt8) : (sextets bs).length = (4 * bs.length + 2) / 3 := by
  fun_induction sextets bs with
  | case1 x y z r n ih =>
    simp only [List.length_cons, ih]
    omega
  | case2 x y n => simp
  | case3 x n => simp
  | case4 => rfl

theorem lt_of_mem_sextets (bs : List UInt8) : ∀ n ∈ sextets bs, n < 64 := by
  fun_induction sextets bs with
  | case1 x y z r n ih =>
    have hx := x.toNat_lt
    have hy := y.toNat_lt
    have hz := z.toNat_lt
    refine List.forall_mem_cons.mpr ⟨by omega, List.forall_mem_cons.mpr ⟨by omega, ?_⟩⟩
    exact List.forall_mem_cons.mpr ⟨by omega, List.forall_mem_cons.mpr ⟨by omega, ih⟩⟩
  | case2 x y n =>
    have hx := x.toNat_lt
    have hy := y.toNat_lt
    refine List.forall_mem_cons.mpr ⟨by omega, List.forall_mem_cons.mpr ⟨by omega, ?_⟩⟩
    exact List.forall_mem_singleton.mpr (by omega)
  | case3 x n =>
    have hx := x.toNat_lt
    exact List.forall_mem_cons.mpr ⟨by omega, List.forall_mem_singleton.mpr (by omega)⟩
  | case4 => exact List.forall_mem_nil _

theorem ofNat_eq {x : UInt8} {n : ℕ} (h : n = x.toNat) : UInt8.ofNat n = x := by
  rw [h, UInt8.ofNat_toNat]

/-- The bytes are put together again from their numbers. -/
theorem bytes?_sextets (bs : List UInt8) : bytes? (sextets bs) = some bs := by
  fun_induction sextets bs with
  | case1 x y z r n ih =>
    have hx := x.toNat_lt
    have hy := y.toNat_lt
    have hz := z.toNat_lt
    rw [bytes?, ih, Option.map_some, ofNat_eq (x := x) (by omega), ofNat_eq (x := y) (by omega),
      ofNat_eq (x := z) (by omega)]
  | case2 x y n =>
    have hx := x.toNat_lt
    have hy := y.toNat_lt
    rw [bytes?, ofNat_eq (x := x) (by omega), ofNat_eq (x := y) (by omega)]
  | case3 x n =>
    have hx := x.toNat_lt
    rw [bytes?, ofNat_eq (x := x) (by omega)]
  | case4 => rfl

/-! ## Texts that are filled up -/

/-- A text of base 64, filled up to whole groups of four. -/
def filled (s : List Char) : List Char := s ++ List.replicate ((4 - s.length % 4) % 4) '='

/-- An alphabet whose characters can be told apart from each other and from the sign that fills up. -/
def Alphabet.IsReadable (a : Alphabet) : Prop :=
  ∀ n < 64, digit a n ≠ '=' ∧ value? a (digit a n) = some n

theorem isReadable_urlSafe : urlSafe.IsReadable := by
  unfold Alphabet.IsReadable
  decide

/-- Characters of the alphabet are read one by one, and their number is counted in fours. -/
theorem looseDigits_map_append (ha : a.IsReadable) {ns : List ℕ} (hns : ∀ n ∈ ns, n < 64) (k : ℕ)
    (s : List Char) : looseDigits a (k % 4) 0 (ns.map (digit a) ++ s) =
      (ns ++ (looseDigits a ((k + ns.length) % 4) 0 s).1,
        (looseDigits a ((k + ns.length) % 4) 0 s).2) := by
  induction ns generalizing k with
  | nil => rfl
  | cons n ns ih =>
    obtain ⟨hn, hns⟩ := List.forall_mem_cons.mp hns
    obtain ⟨hne, hvalue⟩ := ha n hn
    have hcount : (k % 4 + 1) % 4 = (k + 1) % 4 := by omega
    have hlength : k + 1 + ns.length = k + (n :: ns).length := by
      rw [List.length_cons]
      omega
    rw [List.map_cons, List.cons_append, looseDigits, if_neg hne]
    simp only [hvalue, hcount, ih hns, hlength, List.cons_append]

/-- The signs at the end of a text that is filled up end it. -/
theorem looseDigits_replicate {k : ℕ} (hk : k % 4 ≠ 1) :
    looseDigits a (k % 4) 0 (List.replicate ((4 - k % 4) % 4) '=') = ([], decide (k % 4 ≠ 0)) := by
  have hlt : k % 4 < 4 := Nat.mod_lt _ (by decide)
  rcases (by omega : k % 4 = 0 ∨ k % 4 = 2 ∨ k % 4 = 3) with h | h | h <;> rw [h] <;> rfl

/-- **Bytes are read back from their text, filled up.** -/
theorem decodeLoose?_filled_encode (ha : a.IsReadable) (bs : List UInt8) :
    decodeLoose? a (filled (encode a bs)) = some bs := by
  have hlength : (sextets bs).length % 4 ≠ 1 := by
    rw [length_sextets]
    omega
  have hdigits : looseDigits a 0 0 (filled (encode a bs)) =
      (sextets bs, decide ((sextets bs).length % 4 ≠ 0)) := by
    have hrun := looseDigits_map_append ha (lt_of_mem_sextets bs) 0
      (List.replicate ((4 - (sextets bs).length % 4) % 4) '=')
    rw [Nat.zero_add, looseDigits_replicate hlength, List.append_nil] at hrun
    rwa [filled, encode_eq_map, List.length_map]
  have hends : (decide ((sextets bs).length % 4 ≠ 0) || decide ((sextets bs).length % 4 = 0)) = true := by
    by_cases h : (sextets bs).length % 4 = 0 <;> simp [h]
  rw [decodeLoose?, hdigits]
  exact (if_pos hends).trans (bytes?_sextets bs)

theorem mem_encode {c : Char} {bs : List UInt8} (h : c ∈ encode a bs) : ∃ n < 64, c = digit a n := by
  rw [encode_eq_map, List.mem_map] at h
  obtain ⟨n, hn, rfl⟩ := h
  exact ⟨n, lt_of_mem_sextets bs n hn, rfl⟩

theorem length_encode (bs : List UInt8) : (encode a bs).length = (4 * bs.length + 2) / 3 := by
  rw [encode_eq_map, List.length_map, length_sextets]

end Layering.Base64
