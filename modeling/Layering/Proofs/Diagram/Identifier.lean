import Layering.Diagram.Label
import Mathlib.Combinatorics.Pigeonhole
import Mathlib.Data.Fintype.BigOperators
import Mathlib.Tactic.NormNum

/-!
# Identifiers of nodes

An identifier is the stem of a name and the first six digits of a digest, so two names share one exactly
if they share both (`nodeIdWith_eq_iff`). Six digits have `16 ^ 6` values, and a stem can have more names
than that: all names of twenty-five dashes and dots have the same one. So some of these share an
identifier, whatever the digest is (`node_ids_collide`).
-/

namespace Layering.Diagram

/-- The digits that a digest is written with. -/
def hexLetters : Finset Char := "0123456789abcdef".toList.toFinset

/-- A digest: thirty-two hexadecimal digits. -/
structure IsDigest (d : List Char) : Prop where
  length_eq : d.length = 32
  mem_hexLetters : ∀ c ∈ d, c ∈ hexLetters

/-! ## MD5 -/

theorem card_hexLetters : hexLetters.card = 16 := by decide

theorem hexDigit_mem_hexLetters : ∀ n < 16, Text.hexDigit n ∈ hexLetters := by decide

theorem hexDigits_two (n : ℕ) :
    Text.hexDigits 2 n = [Text.hexDigit (n / 16 % 16), Text.hexDigit (n % 16)] := rfl

theorem length_bytesOf (width n : ℕ) : (Md5.bytesOf width n).length = width := by
  induction width generalizing n with
  | zero => rfl
  | succ w ih => rw [Md5.bytesOf, List.length_cons, ih]

theorem length_digest (message : List UInt8) : (Md5.digest message).length = 16 := by
  simp [Md5.digest, length_bytesOf]

theorem isDigest_hexDigest (text : String) : IsDigest (Md5.hexDigest text) where
  length_eq := by
    rw [Md5.hexDigest, List.length_flatMap]
    simp [hexDigits_two, length_digest]
  mem_hexLetters := by
    intro c hc
    obtain ⟨b, -, hb⟩ := List.mem_flatMap.mp hc
    rw [hexDigits_two, List.mem_cons, List.mem_singleton] at hb
    rcases hb with rfl | rfl
    all_goals exact hexDigit_mem_hexLetters _ (Nat.mod_lt _ (by decide))

/-! ## When names share an identifier -/

section Sharing

variable {digest : String → List Char} (hdigest : ∀ name, IsDigest (digest name))
include hdigest

theorem length_take_digest (name : String) : ((digest name).take 6).length = 6 := by
  rw [List.length_take, (hdigest name).length_eq]
  rfl

/-- The last seven characters of an identifier are an underscore and the digits, so what stands before
them is the stem. -/
theorem nodeIdWith_eq_iff (a b : String) : nodeIdWith digest a = nodeIdWith digest b ↔
    idStem a.toList = idStem b.toList ∧ (digest a).take 6 = (digest b).take 6 := by
  rw [nodeIdWith, nodeIdWith, String.ofList_inj]
  constructor
  · intro h
    have hlength : ('_' :: (digest a).take 6).length = ('_' :: (digest b).take 6).length := by
      rw [List.length_cons, List.length_cons, length_take_digest hdigest, length_take_digest hdigest]
    obtain ⟨hstem, htail⟩ := List.append_inj' h hlength
    exact ⟨hstem, List.tail_eq_of_cons_eq htail⟩
  · rintro ⟨hstem, hdigits⟩
    rw [hstem, hdigits]

/-- The first six digits of the digest of a name. -/
def shortDigest (name : String) (i : Fin 6) : hexLetters :=
  ⟨(digest name).get ⟨i, by rw [(hdigest name).length_eq]; omega⟩,
    (hdigest name).mem_hexLetters _ (List.get_mem _ _)⟩

theorem take_eq_of_shortDigest_eq {a b : String}
    (h : shortDigest hdigest a = shortDigest hdigest b) : (digest a).take 6 = (digest b).take 6 := by
  apply List.ext_getElem
  · rw [length_take_digest hdigest, length_take_digest hdigest]
  · intro i hi _
    rw [length_take_digest hdigest] at hi
    rw [List.getElem_take, List.getElem_take]
    exact congrArg Subtype.val (congrFun h ⟨i, hi⟩)

/-- Of more than `16 ^ 6` names with one stem, two have the same digits. -/
theorem exists_ne_of_card_lt {names : Finset String}
    (hstem : ∀ a ∈ names, ∀ b ∈ names, idStem a.toList = idStem b.toList)
    (hcard : 16 ^ 6 < names.card) :
    ∃ a ∈ names, ∃ b ∈ names, a ≠ b ∧ nodeIdWith digest a = nodeIdWith digest b := by
  have hdigits : (Finset.univ : Finset (Fin 6 → hexLetters)).card < names.card := by
    rwa [Finset.card_univ, Fintype.card_fun, Fintype.card_coe, card_hexLetters, Fintype.card_fin]
  obtain ⟨a, ha, b, hb, hne, heq⟩ := Finset.exists_ne_map_eq_of_card_lt_of_maps_to hdigits
    (f := shortDigest hdigest) fun _ _ => Finset.mem_univ _
  refine ⟨a, ha, b, hb, hne, (nodeIdWith_eq_iff hdigest a b).mpr ⟨hstem a ha b hb, ?_⟩⟩
  exact take_eq_of_shortDigest_eq hdigest heq

end Sharing

/-! ## Names of dashes and dots -/

/-- The name with a dash where `marks` is true and a dot elsewhere. -/
def dashName {n : ℕ} (marks : Fin n → Bool) : String :=
  String.ofList (List.ofFn fun i => if marks i then '-' else '.')

theorem dashName_injective (n : ℕ) : Function.Injective (dashName : (Fin n → Bool) → String) := by
  intro f g h
  have hchars := List.ofFn_injective (String.ofList_injective h)
  funext i
  have hi := congrFun hchars i
  cases hf : f i <;> cases hg : g i <;> simp [hf, hg] at hi ⊢

theorem idStem_dashName {n : ℕ} (marks : Fin n → Bool) :
    idStem (dashName marks).toList = List.replicate n '_' := by
  have hbase : ((dashName marks).toList.map fun c => if isIdChar c then c else '_') =
      List.replicate n '_' := by
    rw [dashName, String.toList_ofList, List.map_ofFn, ← List.ofFn_const]
    congr 1
    funext i
    cases h : marks i <;> simp [h, isIdChar]
  have hhead : ¬(List.replicate n '_').head?.any Char.isDigit = true := by
    cases n <;> simp [List.replicate_succ]
  rw [idStem, hbase, if_neg hhead]

/-- **Six digits do not tell all names apart.** Whatever the digest is, two names have the same identifier
exactly if they have the same stem and the same first six digits. Of more than `16 ^ 6` names with one
stem two have the same identifier, and there are such names. -/
theorem node_ids_collide {digest : String → List Char} (hdigest : ∀ name, IsDigest (digest name)) :
    (∀ a b, nodeIdWith digest a = nodeIdWith digest b ↔
      idStem a.toList = idStem b.toList ∧ (digest a).take 6 = (digest b).take 6) ∧
    (∀ names : Finset String,
      (∀ a ∈ names, ∀ b ∈ names, idStem a.toList = idStem b.toList) → 16 ^ 6 < names.card →
      ∃ a ∈ names, ∃ b ∈ names, a ≠ b ∧ nodeIdWith digest a = nodeIdWith digest b) ∧
    ∃ a b, a ≠ b ∧ nodeIdWith digest a = nodeIdWith digest b := by
  refine ⟨nodeIdWith_eq_iff hdigest, fun names => exists_ne_of_card_lt hdigest, ?_⟩
  have hcard : 16 ^ 6 < ((Finset.univ : Finset (Fin 25 → Bool)).image dashName).card := by
    rw [Finset.card_image_of_injective _ (dashName_injective 25), Finset.card_univ, Fintype.card_fun,
      Fintype.card_bool, Fintype.card_fin]
    norm_num
  have hstem : ∀ a ∈ (Finset.univ : Finset (Fin 25 → Bool)).image dashName,
      idStem a.toList = List.replicate 25 '_' := by
    intro a ha
    obtain ⟨marks, -, rfl⟩ := Finset.mem_image.mp ha
    exact idStem_dashName marks
  obtain ⟨a, -, b, -, hne, heq⟩ := exists_ne_of_card_lt hdigest
    (fun a ha b hb => (hstem a ha).trans (hstem b hb).symm) hcard
  exact ⟨a, b, hne, heq⟩

/-- Two names that differ in a dash and an underscore, and have the same identifier. -/
theorem node_ids_collide_dashOrUnderscore :
    (∀ name, IsDigest (Md5.hexDigest name)) ∧ "aliases-undated" ≠ "aliases_undated" ∧
      nodeId "aliases-undated" = nodeId "aliases_undated" := by
  refine ⟨isDigest_hexDigest, by decide, ?_⟩
  exact ((node_ids_collide isDigest_hexDigest).1 _ _).mpr ⟨by decide +kernel, by decide +kernel⟩

end Layering.Diagram
