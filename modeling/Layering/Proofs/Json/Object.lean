import Layering.Proofs.Json.Delimited
import Layering.Proofs.Value.Entries
import Mathlib.Data.List.Nodup

/-!
# What the text of a JSON object says of its fields

The JSON values are those that are made of null, truth values, numbers, texts, lists, and maps whose
keys are texts that differ from each other. A map that can be written and a JSON object with the same
text on one line have, under a name that is written as it stands, the same fields up to their texts
(`field?_text_eq`), and whether a value that can be written counts as true can be read off its text
(`mem_falsyTexts_iff`).
-/

namespace Layering.Json

open Decimal Text

/-- The values of JSON. -/
inductive IsJson : Value → Prop where
  | scalar {s : Scalar} (hs : isScalar s = true) : IsJson (.scalar s)
  | list {items : List Value} (hitems : ∀ v ∈ items, IsJson v) : IsJson (.list items)
  | map {entries : List (Scalar × Value)} (htext : ∀ e ∈ entries, ∃ s, e.1 = .text s)
      (hnodup : (entries.map (·.1)).Nodup) (hvalues : ∀ e ∈ entries, IsJson e.2) :
      IsJson (.map entries)

theorem isJson_record {fields : List (String × Value)} (hnodup : (fields.map (·.1)).Nodup)
    (h : ∀ f ∈ fields, IsJson f.2) : IsJson (.record fields) := by
  refine .map (fun e he => ?_) ?_ fun e he => ?_
  · obtain ⟨f, -, rfl⟩ := List.mem_map.mp he
    exact ⟨f.1, rfl⟩
  · rw [List.map_map]
    exact List.pairwise_map.mpr ((List.pairwise_map.mp hnodup).imp fun hne heq =>
      hne (Scalar.text.inj heq))
  · obtain ⟨f, hf, rfl⟩ := List.mem_map.mp he
    exact h f hf

/-! ## What can be written -/

theorem areWritable_iff {items : List Value} :
    areWritable items = true ↔ ∀ v ∈ items, isWritable v = true := by
  induction items with
  | nil => exact iff_of_true rfl (List.forall_mem_nil _)
  | cons v vs ih => rw [areWritable, Bool.and_eq_true, ih, List.forall_mem_cons]

theorem entriesAreWritable_iff {entries : List (Scalar × Value)} :
    entriesAreWritable entries = true ↔
      ∀ e ∈ entries, isScalar e.1 = true ∧ isWritable e.2 = true := by
  induction entries with
  | nil => exact iff_of_true rfl (List.forall_mem_nil _)
  | cons e es ih =>
    obtain ⟨k, v⟩ := e
    rw [entriesAreWritable, Bool.and_eq_true, Bool.and_eq_true, ih, List.forall_mem_cons]

theorem isWritable_map_iff {entries : List (Scalar × Value)} :
    isWritable (.map entries) = true ↔ isSortable (entries.map (·.1)) = true ∧
      ∀ e ∈ entries, isScalar e.1 = true ∧ isWritable e.2 = true := by
  rw [isWritable, Bool.and_eq_true, entriesAreWritable_iff]

/-- Keys that are all texts can be sorted. -/
theorem isWritable_map_of_forall_text {entries : List (Scalar × Value)}
    (htext : ∀ e ∈ entries, ∃ s, e.1 = .text s) (hvalues : ∀ e ∈ entries, isWritable e.2 = true) :
    isWritable (.map entries) = true := by
  have hall : (entries.map (·.1)).all Scalar.isText = true := by
    refine List.all_eq_true.mpr fun k hk => ?_
    obtain ⟨e, he, rfl⟩ := List.mem_map.mp hk
    obtain ⟨s, hs⟩ := htext e he
    rw [hs]
    rfl
  refine isWritable_map_iff.mpr ⟨?_, fun e he => ?_⟩
  · rw [isSortable, hall, Bool.or_true, Bool.true_or]
  · obtain ⟨s, hs⟩ := htext e he
    exact ⟨hs ▸ rfl, hvalues e he⟩

theorem IsJson.isWritable {v : Value} (h : IsJson v) : isWritable v = true := by
  induction h with
  | scalar hs => exact hs
  | list _ ih => exact areWritable_iff.mpr ih
  | map htext _ _ ih => exact isWritable_map_of_forall_text htext ih

variable {layout : Layout} {depth : ℕ}

/-! ## Members of objects -/

theorem printItems_eq_map (items : List Value) :
    printItems layout depth items = items.map (printAt layout depth) := by
  induction items with
  | nil => rw [printItems, List.map_nil]
  | cons v vs ih => rw [printItems, ih, List.map_cons]

theorem printEntries_eq_map (entries : List (Scalar × Value)) :
    printEntries layout depth entries = entries.map fun e => (e.1, printAt layout depth e.2) := by
  induction entries with
  | nil => rw [printEntries, List.map_nil]
  | cons e es ih =>
    obtain ⟨k, v⟩ := e
    rw [printEntries, ih, List.map_cons]

theorem printString_ne_nil (s : List Char) : printString layout s ≠ [] := by
  simp [printString]

/-- A member of an object. -/
def memberText (layout : Layout) (depth : ℕ) (e : Scalar × Value) : List Char :=
  printString layout (keyText layout e.1) ++ [':', ' '] ++ printAt layout depth e.2

theorem memberText_ne_nil (e : Scalar × Value) : memberText layout depth e ≠ [] := by
  simp [memberText, printString_ne_nil]

/-- The members of an object, in the order in which they are written. -/
def memberTexts (layout : Layout) (depth : ℕ) (entries : List (Scalar × Value)) :
    List (List Char) :=
  (arrange layout (printEntries layout depth entries)).map fun (k, v) =>
    printString layout (keyText layout k) ++ [':', ' '] ++ v

theorem mem_memberTexts {entries : List (Scalar × Value)} {m : List Char} :
    m ∈ memberTexts layout depth entries ↔ ∃ e ∈ entries, memberText layout depth e = m := by
  simp only [memberTexts, List.mem_map, mem_arrange, printEntries_eq_map]
  constructor
  · rintro ⟨-, ⟨e, he, rfl⟩, rfl⟩
    exact ⟨e, he, rfl⟩
  · rintro ⟨e, he, rfl⟩
    exact ⟨_, ⟨e, he, rfl⟩, rfl⟩

theorem memberTexts_nil : memberTexts layout depth [] = [] := by
  refine List.eq_nil_iff_forall_not_mem.mpr fun m hm => ?_
  obtain ⟨e, he, -⟩ := mem_memberTexts.mp hm
  cases he

theorem closed_of_mem_memberTexts {entries : List (Scalar × Value)} {m : List Char}
    (h : m ∈ memberTexts layout depth entries) : Closed m ∧ m ≠ [] := by
  obtain ⟨e, -, rfl⟩ := mem_memberTexts.mp h
  exact ⟨closed_member layout _ (closed_printAt layout depth e.2), memberText_ne_nil e⟩

theorem enclose_of_indent_eq_none (h : layout.indent = none) (left right : Char)
    (members : List (List Char)) :
    enclose layout depth left right members = left :: joinWith [',', ' '] members ++ [right] := by
  cases members with
  | nil => rfl
  | cons m ms => simp only [enclose, h]

theorem printAt_map (h : layout.indent = none) (entries : List (Scalar × Value)) :
    printAt layout depth (.map entries) =
      '\x7b' :: joinWith [',', ' '] (memberTexts layout (depth + 1) entries) ++ ['\x7d'] := by
  rw [printAt]
  exact enclose_of_indent_eq_none h _ _ _

/-- Two objects with the same text on one line have the same members. -/
theorem memberTexts_eq_of_printAt_eq (h : layout.indent = none) {es es' : List (Scalar × Value)}
    (heq : printAt layout depth (.map es) = printAt layout depth (.map es')) :
    memberTexts layout (depth + 1) es = memberTexts layout (depth + 1) es' := by
  rw [printAt_map h, printAt_map h] at heq
  apply joinWith_injective (fun _ => closed_of_mem_memberTexts) fun _ => closed_of_mem_memberTexts
  simpa using heq

/-! ## Fields -/

/-- A name that is written as it stands. -/
def IsPlainName (layout : Layout) (name : List Char) : Prop :=
  ∀ c ∈ name, escapeChar layout c = [c]

/-- What a character is written as begins with a backslash, or is the character itself. -/
theorem exists_escapeChar_eq_cons (layout : Layout) (c : Char) :
    ∃ x rest, escapeChar layout c = x :: rest ∧ x ≠ '"' ∧ (x = '\\' ∨ x = c ∧ rest = []) := by
  have hwritten := written_escapeChar layout c
  generalize escapeChar layout c = w at hwritten ⊢
  cases hwritten with
  | self hquote _ _ => exact ⟨c, [], rfl, hquote, .inr ⟨rfl, rfl⟩⟩
  | short _ _ => exact ⟨_, _, rfl, by decide, .inl rfl⟩
  | unit _ => exact ⟨_, _, rfl, by decide, .inl rfl⟩
  | pair _ => exact ⟨_, _, rfl, by decide, .inl rfl⟩

theorem ne_of_escapeChar_eq {c : Char} (h : escapeChar layout c = [c]) : c ≠ '"' ∧ c ≠ '\\' := by
  constructor
  · rintro rfl
    have hne : ['\\', '"'] ≠ ['"'] := by decide
    exact hne h
  · rintro rfl
    have hne : ['\\', '\\'] ≠ ['\\'] := by decide
    exact hne h

/-- Where the string of a name that is written as it stands ends, no string of another text does. -/
theorem eq_of_escaped_eq {s name t u : List Char} (hname : IsPlainName layout name)
    (h : s.flatMap (escapeChar layout) ++ '"' :: t = name.flatMap (escapeChar layout) ++ '"' :: u) :
    s = name ∧ t = u := by
  induction s generalizing name with
  | nil =>
    cases name with
    | nil => simpa using h
    | cons c name =>
      have hc := hname c List.mem_cons_self
      simp only [List.flatMap_nil, List.nil_append, List.flatMap_cons, hc, List.cons_append,
        List.cons.injEq] at h
      exact absurd h.1.symm (ne_of_escapeChar_eq hc).1
  | cons a s ih =>
    obtain ⟨x, rest, ha, hquote, hx⟩ := exists_escapeChar_eq_cons layout a
    cases name with
    | nil =>
      simp only [List.flatMap_nil, List.nil_append, List.flatMap_cons, ha, List.cons_append,
        List.cons.injEq] at h
      exact absurd h.1 hquote
    | cons c name =>
      have hc := hname c List.mem_cons_self
      simp only [List.flatMap_cons, hc, ha, List.cons_append, List.append_assoc, List.nil_append,
        List.cons.injEq] at h
      obtain ⟨rfl, h⟩ := h
      rcases hx with rfl | ⟨rfl, rfl⟩
      · exact absurd rfl (ne_of_escapeChar_eq hc).2
      · obtain ⟨rfl, ht⟩ := ih (fun x hx => hname x (List.mem_cons_of_mem _ hx)) h
        exact ⟨rfl, ht⟩

theorem eq_of_memberText_eq {name : String} {k : Scalar} {v w : Value}
    (hname : IsPlainName layout name.toList)
    (h : memberText layout depth (k, w) = memberText layout depth (.text name, v)) :
    keyText layout k = name.toList ∧ printAt layout depth w = printAt layout depth v := by
  simp only [memberText, keyText, printString, List.cons_append, List.append_assoc,
    List.nil_append, List.cons.injEq, true_and] at h
  obtain ⟨hs, ht⟩ := eq_of_escaped_eq hname h
  exact ⟨hs, by simpa using ht⟩

/-- In a JSON object the field under a name is the value of the one entry with that key. -/
theorem field?_eq_some_iff {entries : List (Scalar × Value)} (h : IsJson (.map entries))
    {name : String} {v : Value} :
    Entries.field? name entries = some v ↔ (Scalar.text name, v) ∈ entries := by
  refine ⟨Entries.mem_of_field?, fun hv => ?_⟩
  obtain ⟨⟩ | ⟨⟩ | ⟨-, hnodup, -⟩ := h
  obtain ⟨w, hw⟩ := Entries.exists_field? hv
  have hpair : (Scalar.text name, w) = (Scalar.text name, v) :=
    List.inj_on_of_nodup_map hnodup (Entries.mem_of_field? hw) hv rfl
  rw [hw, (Prod.mk.inj hpair).2]

/-- What is written under a name in one of two maps with the same members is written so in the other,
unless a key there that is no text is written as the name. -/
theorem exists_mem_of_memberTexts_eq {es es' : List (Scalar × Value)} {name : String}
    (hname : IsPlainName layout name.toList)
    (hkeys : ∀ e ∈ es', keyText layout e.1 = name.toList → e.1 = .text name)
    (h : memberTexts layout depth es = memberTexts layout depth es') {v : Value}
    (hv : (Scalar.text name, v) ∈ es) :
    ∃ w, (Scalar.text name, w) ∈ es' ∧ printAt layout depth w = printAt layout depth v := by
  have hmem : memberText layout depth (.text name, v) ∈ memberTexts layout depth es' :=
    h ▸ mem_memberTexts.mpr ⟨_, hv, rfl⟩
  obtain ⟨⟨k, w⟩, hw, heq⟩ := mem_memberTexts.mp hmem
  obtain ⟨hk, htext⟩ := eq_of_memberText_eq hname heq
  obtain rfl := hkeys _ hw hk
  exact ⟨w, hw, htext⟩

/-- **A JSON object and a map that is written the same on one line have the same fields, up to their
texts.** -/
theorem field?_text_eq (hl : layout.indent = none) {es es' : List (Scalar × Value)}
    (hes : IsJson (.map es)) {name : String} (hname : IsPlainName layout name.toList)
    (hkeys : ∀ e ∈ es', keyText layout e.1 = name.toList → e.1 = .text name)
    (h : printAt layout depth (.map es) = printAt layout depth (.map es')) :
    (Entries.field? name es).map (printAt layout (depth + 1)) =
      (Entries.field? name es').map (printAt layout (depth + 1)) := by
  have hmembers := memberTexts_eq_of_printAt_eq hl h
  have htexts : ∀ e ∈ es, keyText layout e.1 = name.toList → e.1 = .text name := by
    obtain ⟨⟩ | ⟨⟩ | ⟨htext, -, -⟩ := hes
    intro e he hkey
    obtain ⟨s, hs⟩ := htext e he
    rw [hs] at hkey ⊢
    rw [String.toList_inj.mp hkey]
  cases hv' : Entries.field? name es' with
  | some v' =>
    obtain ⟨v, hv, htext⟩ := exists_mem_of_memberTexts_eq hname htexts hmembers.symm
      (Entries.mem_of_field? hv')
    rw [(field?_eq_some_iff hes).mpr hv, Option.map_some, Option.map_some, htext]
  | none =>
    cases hv : Entries.field? name es with
    | none => rfl
    | some v =>
      obtain ⟨w, hw, -⟩ := exists_mem_of_memberTexts_eq hname hkeys hmembers
        (Entries.mem_of_field? hv)
      obtain ⟨v', hsome⟩ := Entries.exists_field? hw
      rw [hv'] at hsome
      cases hsome

/-! ## Truth -/

/-- The texts of the values that do not count as true. -/
def falsyTexts : List (List Char) :=
  ["null", "false", "0", "0.0", "-0.0", "\"\"", "[]", "\x7b\x7d"].map String.toList

theorem not_mem_falsyTexts_of_hasNonzeroDigit {t : List Char} (h : HasNonzeroDigit t) :
    t ∉ falsyTexts := by
  have hzero : falsyTexts.all (·.all fun c => !c.isDigit || c == '0') = true := by decide
  obtain ⟨c, hc, hdigit, hne⟩ := h
  intro ht
  have hc' := List.all_eq_true.mp (List.all_eq_true.mp hzero t ht) c hc
  simp [hdigit, hne] at hc'

theorem not_mem_falsyTexts_of_ne_nil {left right : Char} (hleft : left ∈ ['"', '[', '\x7b'])
    {t : List Char} (ht : t ≠ []) : left :: t ++ [right] ∉ falsyTexts := by
  have hshort : falsyTexts.all (fun u => u.length = 2 ∨ u.head?.all (· ∉ ['"', '[', '\x7b'])) =
      true := by decide
  intro hmem
  have hlength := List.all_eq_true.mp hshort _ hmem
  have hpos := List.length_pos_iff.mpr ht
  simp only [List.cons_append, List.length_cons, List.length_append, List.length_nil,
    List.head?_cons, Option.all_some, hleft, not_true_eq_false, decide_false, Bool.false_eq_true,
    or_false, decide_eq_true_eq] at hlength
  omega

theorem ne_nil_of_hasNonzeroDigit {t : List Char} (h : HasNonzeroDigit t) : t ≠ [] := by
  obtain ⟨c, hc, -⟩ := h
  exact List.ne_nil_of_mem hc

theorem printReal_ne_nil (x : Binary64) : printReal x ≠ [] := by
  cases x with
  | finite negative m e =>
    by_cases hm : m = 0
    · simp [printReal, Binary64.text, hm]
    · exact ne_nil_of_hasNonzeroDigit (hasNonzeroDigit_text_finite hm)
  | infinite negative => cases negative <;> decide
  | nan payload => exact (by decide : "NaN".toList ≠ [])

theorem toString_int_ne_nil (n : ℤ) : (toString n).toList ≠ [] := by
  rw [toList_toString_int]
  exact List.append_ne_nil_of_right_ne_nil _ Nat.toDigits_ne_nil

theorem printScalar_ne_nil (s : Scalar) : printScalar layout s ≠ [] := by
  cases s with
  | null => exact (by decide : "null".toList ≠ [])
  | bool b =>
    cases b with
    | false => exact (by decide : "false".toList ≠ [])
    | true => exact (by decide : "true".toList ≠ [])
  | int n => exact toString_int_ne_nil n
  | real x => exact printReal_ne_nil x
  | text s => exact printString_ne_nil _
  | bytes bs => exact printString_ne_nil _
  | date d => exact printString_ne_nil _
  | time t => exact printString_ne_nil _

/-- A character that the text of a JSON scalar may begin with. -/
def IsScalarHead (c : Char) : Prop := IsNumeral c ∨ c ∈ ['n', 't', 'f', 'I', 'N', '"']

instance (c : Char) : Decidable (IsScalarHead c) := inferInstanceAs (Decidable (_ ∨ _))

theorem isScalarHead_of_printReal_eq {x : Binary64} {c : Char} {t : List Char}
    (h : printReal x = c :: t) : IsScalarHead c := by
  cases x with
  | finite negative m e =>
    have htext : (Binary64.finite negative m e).text = c :: t := h
    exact .inl (isNumeral_of_mem_text_finite (htext ▸ List.mem_cons_self))
  | infinite negative =>
    cases negative with
    | true =>
      obtain rfl : '-' = c := (List.cons.inj h).1
      decide
    | false =>
      obtain rfl : 'I' = c := (List.cons.inj h).1
      decide
  | nan payload =>
    obtain rfl : 'N' = c := (List.cons.inj h).1
    decide

theorem isScalarHead_of_printScalar_eq {s : Scalar} (hs : isScalar s = true) {c : Char} {t : List Char}
    (h : printScalar layout s = c :: t) : IsScalarHead c := by
  cases s with
  | null =>
    obtain rfl : 'n' = c := (List.cons.inj h).1
    decide
  | bool b =>
    cases b with
    | true =>
      obtain rfl : 't' = c := (List.cons.inj h).1
      decide
    | false =>
      obtain rfl : 'f' = c := (List.cons.inj h).1
      decide
  | int n =>
    have htext : (toString n).toList = c :: t := h
    exact .inl (isNumeral_of_mem_toString_int (htext ▸ List.mem_cons_self))
  | real x => exact isScalarHead_of_printReal_eq h
  | text s =>
    obtain rfl : '"' = c := (List.cons.inj h).1
    decide
  | bytes bs => cases hs
  | date d => cases hs
  | time t => cases hs

/-- A key that can be written is written as a name of another start only if it is the name. -/
theorem eq_text_of_keyText_eq {k : Scalar} (hk : isScalar k = true) {name : String} {c : Char}
    {t : List Char} (hname : name.toList = c :: t) (hc : ¬IsScalarHead c)
    (h : keyText layout k = name.toList) : k = .text name := by
  have hother : printScalar layout k ≠ name.toList := by
    rw [hname]
    exact fun hprint => hc (isScalarHead_of_printScalar_eq hk hprint)
  cases k with
  | text s => rw [String.toList_inj.mp h]
  | null => exact absurd h hother
  | bool b => exact absurd h hother
  | int n => exact absurd h hother
  | real x => exact absurd h hother
  | bytes bs => cases hk
  | date d => cases hk
  | time t => cases hk

theorem enclose_ne_nil (left right : Char) (members : List (List Char)) :
    enclose layout depth left right members ≠ [] := by
  unfold enclose
  split <;> simp

theorem printAt_ne_nil (v : Value) : printAt layout depth v ≠ [] := by
  cases v with
  | scalar s =>
    rw [printAt]
    exact printScalar_ne_nil s
  | list items =>
    rw [printAt]
    exact enclose_ne_nil _ _ _
  | map entries =>
    rw [printAt]
    exact enclose_ne_nil _ _ _
  | set members =>
    rw [printAt]
    exact enclose_ne_nil _ _ _

theorem joinWith_ne_nil {sep : List Char} {ms : List (List Char)} (hms : ms ≠ [])
    (h : ∀ m ∈ ms, m ≠ []) : joinWith sep ms ≠ [] := by
  match ms with
  | [m] => exact h m (by simp)
  | m :: n :: ms =>
    have hm := h m (by simp)
    simp [joinWith, hm]

theorem printReal_mem_falsyTexts_iff (x : Binary64) :
    printReal x ∈ falsyTexts ↔ x.isZero = true := by
  cases x with
  | finite negative m e =>
    by_cases hm : m = 0
    · subst hm
      refine iff_of_true ?_ (by simp [Binary64.isZero])
      cases negative <;> simp [printReal, Binary64.text, falsyTexts]
    · refine iff_of_false ?_ (by simp [Binary64.isZero, hm])
      exact not_mem_falsyTexts_of_hasNonzeroDigit (hasNonzeroDigit_text_finite hm)
  | infinite negative =>
    refine iff_of_false ?_ (by simp [Binary64.isZero])
    cases negative <;> simp [printReal, falsyTexts]
  | nan payload => exact iff_of_false (by simp [printReal, falsyTexts]) (by simp [Binary64.isZero])

theorem escaped_ne_nil {s : List Char} (hs : s ≠ []) : s.flatMap (escapeChar layout) ≠ [] := by
  obtain ⟨c, s, rfl⟩ := List.exists_cons_of_ne_nil hs
  obtain ⟨x, rest, hc, -⟩ := exists_escapeChar_eq_cons layout c
  simp [hc]

theorem printScalar_mem_falsyTexts_iff {s : Scalar} (hs : isScalar s = true) :
    printScalar layout s ∈ falsyTexts ↔ s.isTruthy = false := by
  cases s with
  | null => exact iff_of_true (by decide : "null".toList ∈ falsyTexts) rfl
  | bool b =>
    cases b with
    | false => exact iff_of_true (by decide : "false".toList ∈ falsyTexts) rfl
    | true => exact iff_of_false (by decide : "true".toList ∉ falsyTexts) (by decide)
  | int n =>
    by_cases hn : n = 0
    · subst hn
      exact iff_of_true (by decide : "0".toList ∈ falsyTexts) rfl
    · refine iff_of_false ?_ (by simp [Scalar.isTruthy, hn])
      exact not_mem_falsyTexts_of_hasNonzeroDigit (hasNonzeroDigit_toString_int hn)
  | real x => exact (printReal_mem_falsyTexts_iff x).trans (by simp [Scalar.isTruthy])
  | text s =>
    by_cases hempty : s = ""
    · subst hempty
      exact iff_of_true (by decide : "\"\"".toList ∈ falsyTexts) rfl
    · refine iff_of_false ?_ (by simp [Scalar.isTruthy, hempty])
      exact not_mem_falsyTexts_of_ne_nil (by simp) (escaped_ne_nil (by simpa using hempty))
  | bytes bs => cases hs
  | date d => cases hs
  | time t => cases hs

/-- **Whether a value that can be written counts as true can be read off its text on one line.** -/
theorem mem_falsyTexts_iff (hl : layout.indent = none) {v : Value} (hv : isWritable v = true) :
    printAt layout depth v ∈ falsyTexts ↔ v.isTruthy = false := by
  cases v with
  | scalar s =>
    rw [printAt]
    exact printScalar_mem_falsyTexts_iff hv
  | list items =>
    rw [printAt, enclose_of_indent_eq_none hl, printItems_eq_map]
    cases items with
    | nil => exact iff_of_true (by decide : "[]".toList ∈ falsyTexts) rfl
    | cons v vs =>
      refine iff_of_false (not_mem_falsyTexts_of_ne_nil (by simp) (joinWith_ne_nil ?_ ?_)) ?_
      · simp
      · simp [printAt_ne_nil]
      · simp [Value.isTruthy]
  | set members => cases hv
  | map entries =>
    rw [printAt_map hl]
    cases entries with
    | nil =>
      rw [memberTexts_nil]
      exact iff_of_true (by decide : "\x7b\x7d".toList ∈ falsyTexts) rfl
    | cons e es =>
      refine iff_of_false (not_mem_falsyTexts_of_ne_nil (by simp) (joinWith_ne_nil ?_ ?_)) ?_
      · exact List.ne_nil_of_mem (mem_memberTexts.mpr ⟨e, List.mem_cons_self, rfl⟩)
      · exact fun m hm => (closed_of_mem_memberTexts hm).2
      · simp [Value.isTruthy]

end Layering.Json
