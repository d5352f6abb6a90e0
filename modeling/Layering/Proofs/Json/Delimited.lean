import Layering.Json.Printer
import Layering.Json.Reader
import Layering.Proofs.Decimal.Numeral
import Layering.Proofs.Text.Delimited
import Layering.Proofs.Text.Surrogate

/-!
# JSON texts delimit themselves

A character of a string has one of a few forms (`Written`), each of which may stand between double
quotes. The text of every value is therefore closed (`closed_printAt`): a scan reads it to its end and
is left where it began.
-/

namespace Layering.Json

open Decimal Text

/-! ## Scalars -/

theorem isInert_of_isNumeral {c : Char} (h : IsNumeral c) : IsInert c := by
  intro hc
  simp only [List.mem_cons, List.not_mem_nil, or_false] at hc
  unfold IsNumeral at h
  rcases hc with rfl | rfl | rfl | rfl | rfl | rfl | rfl | rfl | rfl | rfl | rfl <;>
    exact absurd h (by decide)

theorem closed_toString_int (n : ℤ) : Closed (toString n).toList :=
  closed_of_forall_isInert fun _ hc => isInert_of_isNumeral (isNumeral_of_mem_toString_int hc)

theorem closed_text_finite (negative : Bool) (m : ℕ) (e : ℤ) :
    Closed (Binary64.finite negative m e).text :=
  closed_of_forall_isInert fun _ hc => isInert_of_isNumeral (isNumeral_of_mem_text_finite hc)

/-- The forms that a character can have in a string: itself, a backslash with one character, or one or
two units. -/
inductive Written (layout : Layout) (c : Char) : List Char → Prop where
  | self (hquote : c ≠ '"') (hslash : c ≠ '\\') (hascii : layout.ascii = true → c.toNat < 0x7f) :
      Written layout c [c]
  | short {x : Char} (hx : unescape? x = some c) (hu : x ≠ 'u') : Written layout c ['\\', x]
  | unit (hlt : codePoint c < 0x10000) : Written layout c (escapeUnit (codePoint c))
  | pair (hle : 0x10000 ≤ codePoint c) :
      Written layout c (escapeUnit (0xd800 + (c.toNat - 0x10000) / 0x400) ++
        escapeUnit (0xdc00 + (c.toNat - 0x10000) % 0x400))

theorem written_escapeChar (layout : Layout) (c : Char) : Written layout c (escapeChar layout c) := by
  have hshort : ∀ {x d : Char}, c = d → unescape? x = some d → x ≠ 'u' → Written layout c ['\\', x] :=
    fun hc hx hu => .short (hx.trans (congrArg some hc.symm)) hu
  unfold escapeChar
  refine iteInduction (fun hc => hshort hc rfl (by decide)) fun hquote => ?_
  refine iteInduction (fun hc => hshort hc rfl (by decide)) fun hslash => ?_
  refine iteInduction (fun hc => hshort hc rfl (by decide)) fun _ => ?_
  refine iteInduction (fun hc => hshort hc rfl (by decide)) fun _ => ?_
  refine iteInduction (fun hc => hshort hc rfl (by decide)) fun _ => ?_
  refine iteInduction (fun hc => hshort hc rfl (by decide)) fun _ => ?_
  refine iteInduction (fun hc => hshort hc rfl (by decide)) fun _ => ?_
  refine iteInduction (fun hlt => ?_) fun _ => ?_
  · have hnumber : codePoint c = c.toNat := codePoint_of_lt (hlt.trans (by decide))
    rw [← hnumber]
    exact .unit (by omega)
  refine iteInduction (fun hplain => .self hquote hslash fun hascii => ?_) fun _ => ?_
  · rw [hascii, Bool.not_true, Bool.false_or] at hplain
    exact of_decide_eq_true hplain
  exact iteInduction (fun hlt => .unit hlt) fun hle => .pair (Nat.le_of_not_lt hle)

theorem inside_escapeUnit (n : ℕ) : Inside .double (escapeUnit n) :=
  .escape 'u' (inside_hexDigits .double 4 n)

theorem Written.inside {layout : Layout} {c : Char} {w : List Char} (h : Written layout c w) :
    Inside .double w := by
  cases h with
  | self hquote hslash _ => exact .cons hquote hslash .nil
  | short _ _ => exact .escape _ .nil
  | unit _ => exact inside_escapeUnit _
  | pair _ => exact (inside_escapeUnit _).append (inside_escapeUnit _)

theorem inside_flatMap_escapeChar (layout : Layout) (s : List Char) :
    Inside .double (s.flatMap (escapeChar layout)) :=
  inside_flatMap fun c _ => (written_escapeChar layout c).inside

theorem closed_printString (layout : Layout) (s : List Char) : Closed (printString layout s) :=
  (inside_flatMap_escapeChar layout s).closed

theorem closed_printReal (x : Binary64) : Closed (printReal x) := by
  cases x with
  | finite negative m e => exact closed_text_finite negative m e
  | infinite negative => cases negative <;> exact closed_of_all_isInert (by decide)
  | nan payload => exact closed_of_all_isInert (t := "NaN".toList) (by decide)

theorem closed_printScalar (layout : Layout) (s : Scalar) : Closed (printScalar layout s) := by
  cases s with
  | null => exact closed_of_all_isInert (t := "null".toList) (by decide)
  | bool b =>
    cases b with
    | false => exact closed_of_all_isInert (t := "false".toList) (by decide)
    | true => exact closed_of_all_isInert (t := "true".toList) (by decide)
  | int n => exact closed_toString_int n
  | real x => exact closed_printReal x
  | text s => exact closed_printString layout _
  | bytes bs => exact closed_printString layout _
  | date d => exact closed_printString layout _
  | time t => exact closed_printString layout _

/-! ## Values -/

theorem closed_enclose (layout : Layout) (depth : ℕ) {left right : Char}
    (hb : IsBrackets left right) {members : List (List Char)} (h : ∀ m ∈ members, Closed m) :
    Closed (enclose layout depth left right members) := by
  have hblank : ∀ n, Closed ('\n' :: List.replicate n ' ') := fun n =>
    closed_of_forall_isInert fun c hc => by
      rcases List.mem_cons.mp hc with rfl | hc
      · decide
      · rw [List.eq_of_mem_replicate hc]
        decide
  unfold enclose
  split
  · exact closed_bracketed hb (t := []) fun _ => rfl
  · exact closed_members hb closed_space h
  · rename_i n _ _
    refine closed_bracketed hb fun d => ((hblank (n * (depth + 1)) _).append ?_).append
      (hblank (n * depth) _)
    exact keeps_joinWith ((hblank _).keeps_comma d) fun m hm => h m hm _

theorem mem_arrange {layout : Layout} {members : List (Scalar × List Char)}
    {m : Scalar × List Char} : m ∈ arrange layout members ↔ m ∈ members := by
  unfold arrange
  split
  · exact List.mem_mergeSort
  · exact Iff.rfl

theorem closed_member (layout : Layout) (k : List Char) {t : List Char} (ht : Closed t) :
    Closed (printString layout k ++ [':', ' '] ++ t) :=
  ((closed_printString layout k).append (u := [':', ' ']) fun _ => rfl).append ht

mutual

/-- **The text of a value leaves a scan where it began.** -/
theorem closed_printAt (layout : Layout) (depth : ℕ) : (v : Value) → Closed (printAt layout depth v)
  | .scalar s => by
    rw [printAt]
    exact closed_printScalar layout s
  | .list items => by
    rw [printAt]
    exact closed_enclose layout depth (.inr (.inl ⟨rfl, rfl⟩)) (closed_of_mem_printItems layout _ items)
  | .map entries => by
    rw [printAt]
    refine closed_enclose layout depth (.inr (.inr ⟨rfl, rfl⟩)) fun m hm => ?_
    obtain ⟨⟨k, t⟩, hmem, rfl⟩ := List.mem_map.mp hm
    exact closed_member layout _
      (closed_of_mem_printEntries layout _ entries (k, t) (mem_arrange.mp hmem))
  | .set members => by
    rw [printAt]
    refine closed_enclose layout depth (.inr (.inl ⟨rfl, rfl⟩)) fun m hm => ?_
    obtain ⟨s, -, rfl⟩ := List.mem_map.mp hm
    exact closed_printScalar layout s

theorem closed_of_mem_printItems (layout : Layout) (depth : ℕ) :
    (items : List Value) → ∀ m ∈ printItems layout depth items, Closed m
  | [], m, hm => by
    rw [printItems] at hm
    cases hm
  | v :: vs, m, hm => by
    rw [printItems] at hm
    rcases List.mem_cons.mp hm with rfl | hm
    · exact closed_printAt layout depth v
    · exact closed_of_mem_printItems layout depth vs m hm

theorem closed_of_mem_printEntries (layout : Layout) (depth : ℕ) :
    (entries : List (Scalar × Value)) → ∀ m ∈ printEntries layout depth entries, Closed m.2
  | [], m, hm => by
    rw [printEntries] at hm
    cases hm
  | (k, v) :: es, m, hm => by
    rw [printEntries] at hm
    rcases List.mem_cons.mp hm with rfl | hm
    · exact closed_printAt layout depth v
    · exact closed_of_mem_printEntries layout depth es m hm

end

end Layering.Json
