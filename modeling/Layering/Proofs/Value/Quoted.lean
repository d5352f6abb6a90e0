import Layering.Proofs.Json.Object
import Layering.Value.Shown

/-!
# Values in messages and JSON texts

The text by which a message shows a value is closed like a JSON text (`closed_quoted`), so its members
can be told apart. Where such a text is a JSON text as well, it shows a value that can be written: what
cannot, a byte string, a date or a set, begins with a letter that no JSON text begins with or lacks the
colons of a JSON object, and a key that is shown between double quotes is a text
(`IsShownAsJson.isWritable`).
-/

namespace Layering

open Decimal Text Json

/-! ## Quoted texts -/

theorem Text.inside_quoteChar (a : Quote) (c : Char) : Inside a (quoteChar a.char c) := by
  unfold quoteChar
  refine iteInduction (fun _ => .escape c .nil) fun hne => ?_
  refine iteInduction (fun _ => .escape 'n' .nil) fun _ => ?_
  refine iteInduction (fun _ => .escape 'r' .nil) fun _ => ?_
  refine iteInduction (fun _ => .escape 't' .nil) fun _ => ?_
  refine iteInduction (fun _ => .cons (fun h => hne (.inl h)) (fun h => hne (.inr h)) .nil) fun _ => ?_
  refine iteInduction (fun _ => .escape 'x' (inside_hexDigits a 2 _)) fun _ => ?_
  exact iteInduction (fun _ => .escape 'u' (inside_hexDigits a 4 _))
    fun _ => .escape 'U' (inside_hexDigits a 8 _)

theorem Text.exists_quoteFor (s : List Char) : ∃ a : Quote, quoteFor s = a.char := by
  unfold quoteFor
  split
  · exact ⟨.double, rfl⟩
  · exact ⟨.single, rfl⟩

/-- A text is shown between two quotes of one kind. -/
theorem Text.exists_quoted_eq (s : List Char) :
    ∃ (a : Quote) (body : List Char), Inside a body ∧ Text.quoted s = a.char :: body ++ [a.char] := by
  obtain ⟨a, ha⟩ := exists_quoteFor s
  refine ⟨a, s.flatMap (quoteChar a.char), inside_flatMap fun c _ => inside_quoteChar a c, ?_⟩
  rw [Text.quoted, ha]

theorem Text.closed_quotedBytes (bs : List UInt8) : Closed (quotedBytes bs) := by
  obtain ⟨a, ha⟩ := exists_quoteFor (bs.map fun b => Char.ofNat b.toNat)
  unfold quotedBytes
  dsimp only
  rw [ha]
  refine (closed_of_all_isInert (t := ['b']) (by decide)).append
    (Inside.closed (a := a) (inside_flatMap fun c _ => ?_))
  split
  · exact inside_quoteChar a c
  · exact .escape 'x' (inside_hexDigits a 2 _)

/-! ## Dates -/

/-- A name, an opening parenthesis, closed arguments and a closing parenthesis. -/
theorem closed_call (start : List Char) (args : List (List Char))
    (hstart : start = start.dropLast ++ ['('] ∧ start.dropLast.all (IsInert ·) = true)
    (h : ∀ m ∈ args, Closed m) :
    Closed (start ++ joinWith [',', ' '] args ++ [')']) := by
  rw [hstart.1, List.append_assoc, List.append_assoc]
  exact (closed_of_all_isInert hstart.2).append (closed_members (.inl ⟨rfl, rfl⟩) closed_space h)

theorem closed_toDigits (n : ℕ) : Closed (Nat.toDigits 10 n) :=
  closed_of_forall_isInert fun _ hc => isInert_of_isNumeral (isNumeral_of_mem_toDigits hc)

theorem closed_quotedSpan (span : ℤ) : Closed (quotedSpan span) := by
  have hparts : ∀ parts : List (String × ℤ), (∀ p ∈ parts, Closed p.1.toList) →
      ∀ m ∈ parts.map fun p => (p.1 ++ toString p.2).toList, Closed m := by
    intro parts h m hm
    obtain ⟨p, hp, rfl⟩ := List.mem_map.mp hm
    rw [String.toList_append]
    exact (h p hp).append (closed_toString_int p.2)
  unfold quotedSpan
  dsimp only
  split
  · exact closed_call _ [['0']] (by decide)
      fun m hm => List.mem_singleton.mp hm ▸ closed_of_all_isInert (by decide)
  · refine closed_call _ _ (by decide) (hparts _ fun p hp => ?_)
    have hmem := List.mem_of_mem_filter hp
    simp only [List.mem_cons, List.not_mem_nil, or_false] at hmem
    rcases hmem with rfl | rfl | rfl
    · exact closed_of_all_isInert (t := "days=".toList) (by decide)
    · exact closed_of_all_isInert (t := "seconds=".toList) (by decide)
    · exact closed_of_all_isInert (t := "microseconds=".toList) (by decide)

theorem Date.closed_quoted (d : Date) : Closed d.quoted := by
  refine closed_call _ _ (by decide) fun m hm => ?_
  obtain ⟨n, -, rfl⟩ := List.mem_map.mp hm
  exact closed_toDigits n

theorem Timestamp.closed_quoted (t : Timestamp) : Closed t.quoted := by
  have hzone : ∀ s, Closed ("tzinfo=datetime.timezone(".toList ++ quotedSpan s ++ [')']) := fun s =>
    closed_call _ [quotedSpan s] (by decide)
      fun m hm => List.mem_singleton.mp hm ▸ closed_quotedSpan s
  refine closed_call _ _ (by decide) fun m hm => ?_
  rcases List.mem_append.mp hm with hm | hm
  · obtain ⟨n, -, rfl⟩ := List.mem_map.mp hm
    exact closed_toDigits n
  · split at hm
    · cases hm
    · rw [List.mem_singleton.mp hm]
      exact closed_of_all_isInert (by decide)
    · rw [List.mem_singleton.mp hm]
      exact hzone _

/-! ## Values -/

theorem Scalar.quoted_text (s : String) : (Scalar.text s).quoted = Text.quoted s.toList := rfl

theorem Scalar.closed_quoted (s : Scalar) : Closed s.quoted := by
  cases s with
  | null => exact closed_of_all_isInert (t := "None".toList) (by decide)
  | bool b =>
    cases b with
    | false => exact closed_of_all_isInert (t := "False".toList) (by decide)
    | true => exact closed_of_all_isInert (t := "True".toList) (by decide)
  | int n => exact closed_toString_int n
  | real x =>
    cases x with
    | finite negative m e => exact closed_text_finite negative m e
    | infinite negative => cases negative <;> exact closed_of_all_isInert (by decide)
    | nan payload => exact closed_of_all_isInert (t := ['n', 'a', 'n']) (by decide)
  | text s =>
    obtain ⟨a, body, hbody, hquoted⟩ := exists_quoted_eq s.toList
    rw [Scalar.quoted_text, hquoted]
    exact hbody.closed
  | bytes bs => exact closed_quotedBytes bs
  | date d => exact d.closed_quoted
  | time t => exact t.closed_quoted

theorem Scalar.quoted_ne_nil (s : Scalar) : s.quoted ≠ [] := by
  cases s with
  | int n => exact toString_int_ne_nil n
  | real x =>
    cases x with
    | finite negative m e => exact printReal_ne_nil (.finite negative m e)
    | infinite negative => cases negative <;> exact List.cons_ne_nil _ _
    | nan payload => exact List.cons_ne_nil _ _
  | null => exact List.cons_ne_nil _ _
  | bool b => cases b <;> exact List.cons_ne_nil _ _
  | text s =>
    obtain ⟨a, body, -, hquoted⟩ := exists_quoted_eq s.toList
    rw [Scalar.quoted_text, hquoted]
    exact List.cons_ne_nil _ _
  | bytes bs => exact List.cons_ne_nil _ _
  | date d => exact List.cons_ne_nil _ _
  | time t => exact List.cons_ne_nil _ _

theorem Value.quoted_set_cons (s : Scalar) (members : List Scalar) :
    (Value.set (s :: members)).quoted =
      '\x7b' :: joinWith [',', ' '] ((s :: members).map Scalar.quoted) ++ ['\x7d'] := by
  rw [Value.quoted]
  exact List.cons_ne_nil s members

theorem Value.quoted_ne_nil (v : Value) : v.quoted ≠ [] := by
  cases v with
  | scalar s =>
    rw [Value.quoted]
    exact s.quoted_ne_nil
  | list items =>
    rw [Value.quoted]
    exact List.cons_ne_nil _ _
  | map entries =>
    rw [Value.quoted]
    exact List.cons_ne_nil _ _
  | set members =>
    cases members with
    | nil =>
      rw [Value.quoted]
      exact List.cons_ne_nil _ _
    | cons s members =>
      rw [Value.quoted_set_cons]
      exact List.cons_ne_nil _ _

theorem quotedItems_eq_map (items : List Value) : quotedItems items = items.map Value.quoted := by
  induction items with
  | nil => rw [quotedItems, List.map_nil]
  | cons v vs ih => rw [quotedItems, ih, List.map_cons]

theorem quotedEntries_eq_map (entries : List (Scalar × Value)) :
    quotedEntries entries = entries.map fun e => e.1.quoted ++ [':', ' '] ++ e.2.quoted := by
  induction entries with
  | nil => rw [quotedEntries, List.map_nil]
  | cons e es ih =>
    obtain ⟨k, v⟩ := e
    rw [quotedEntries, ih, List.map_cons]

theorem closed_quoted_member (k : Scalar) {t : List Char} (ht : Closed t) :
    Closed (k.quoted ++ [':', ' '] ++ t) :=
  (k.closed_quoted.append (u := [':', ' ']) fun _ => rfl).append ht

mutual

/-- **The text that shows a value leaves a scan where it began.** -/
theorem Value.closed_quoted : (v : Value) → Closed v.quoted
  | .scalar s => by
    rw [Value.quoted]
    exact s.closed_quoted
  | .list items => by
    rw [Value.quoted]
    exact closed_members (.inr (.inl ⟨rfl, rfl⟩)) closed_space (closed_of_mem_quotedItems items)
  | .map entries => by
    rw [Value.quoted]
    exact closed_members (.inr (.inr ⟨rfl, rfl⟩)) closed_space (closed_of_mem_quotedEntries entries)
  | .set [] => by
    rw [Value.quoted]
    exact closed_call "set(".toList [] (by decide) (List.forall_mem_nil _)
  | .set (s :: members) => by
    rw [Value.quoted_set_cons]
    refine closed_members (.inr (.inr ⟨rfl, rfl⟩)) closed_space fun m hm => ?_
    obtain ⟨s, -, rfl⟩ := List.mem_map.mp hm
    exact s.closed_quoted

theorem closed_of_mem_quotedItems : (items : List Value) → ∀ m ∈ quotedItems items, Closed m
  | [], m, hm => by
    rw [quotedItems] at hm
    cases hm
  | v :: vs, m, hm => by
    rw [quotedItems] at hm
    rcases List.mem_cons.mp hm with rfl | hm
    · exact v.closed_quoted
    · exact closed_of_mem_quotedItems vs m hm

theorem closed_of_mem_quotedEntries :
    (entries : List (Scalar × Value)) → ∀ m ∈ quotedEntries entries, Closed m
  | [], m, hm => by
    rw [quotedEntries] at hm
    cases hm
  | (k, v) :: es, m, hm => by
    rw [quotedEntries] at hm
    rcases List.mem_cons.mp hm with rfl | hm
    · exact closed_quoted_member k v.closed_quoted
    · exact closed_of_mem_quotedEntries es m hm

end

/-! ## Texts that are both -/

/-- A scalar that is shown with a double quote in front is a text, and its end can be told apart from
what follows it. -/
theorem eq_text_of_quoted_eq {layout : Layout} {k : Scalar} {s t u : List Char}
    (h : k.quoted ++ t = printString layout s ++ u) : (∃ s, k = .text s) ∧ t = u := by
  have hnumeral : ∀ {w : List Char}, (∀ c ∈ w, IsNumeral c) → w ≠ [] →
      w ++ t ≠ printString layout s ++ u := by
    intro w hw hne heq
    obtain ⟨c, w, rfl⟩ := List.exists_cons_of_ne_nil hne
    obtain rfl : c = '"' := (List.cons.inj heq).1
    exact absurd (hw '"' List.mem_cons_self) (by decide)
  cases k with
  | text s' =>
    refine ⟨⟨s', rfl⟩, ?_⟩
    obtain ⟨a, body, hbody, hquoted⟩ := exists_quoted_eq s'.toList
    rw [Scalar.quoted_text, hquoted, printString, List.cons_append, List.cons_append, List.cons_append,
      List.cons_append, List.append_assoc, List.append_assoc, List.singleton_append,
      List.singleton_append, List.cons.injEq] at h
    obtain rfl : a = .double := Quote.char_injective h.1
    exact (hbody.eq_of_append_eq (inside_flatMap_escapeChar layout s) h.2).2
  | int n =>
    exact absurd h (hnumeral (fun _ => isNumeral_of_mem_toString_int) (toString_int_ne_nil n))
  | real x =>
    cases x with
    | finite negative m e =>
      exact absurd h (hnumeral (fun _ => isNumeral_of_mem_text_finite)
        (printReal_ne_nil (.finite negative m e)))
    | infinite negative => cases negative <;> exact absurd (List.cons.inj h).1 (by decide)
    | nan payload => exact absurd (List.cons.inj h).1 (by decide)
  | null => exact absurd (List.cons.inj h).1 (by decide)
  | bool b => cases b <;> exact absurd (List.cons.inj h).1 (by decide)
  | bytes bs => exact absurd (List.cons.inj h).1 (by decide)
  | date d => exact absurd (List.cons.inj h).1 (by decide)
  | time t => exact absurd (List.cons.inj h).1 (by decide)

variable {layout : Layout} {depth : ℕ}

/-- What the text of a value that can be written begins with. -/
theorem head_of_printAt_eq {w : Value} (hw : isWritable w = true) {c : Char} {t : List Char}
    (h : printAt layout depth w = c :: t) :
    IsScalarHead c ∨ c = '[' ∧ (∃ items, w = .list items) ∨
      c = '\x7b' ∧ ∃ entries, w = .map entries := by
  have hleft : ∀ {left right : Char} {members : List (List Char)},
      enclose layout depth left right members = c :: t → left = c := by
    intro left right members henclose
    unfold enclose at henclose
    split at henclose <;> exact (List.cons.inj henclose).1
  cases w with
  | scalar s =>
    rw [printAt] at h
    exact .inl (isScalarHead_of_printScalar_eq hw h)
  | list items =>
    rw [printAt] at h
    exact .inr (.inl ⟨(hleft h).symm, items, rfl⟩)
  | map entries =>
    rw [printAt] at h
    exact .inr (.inr ⟨(hleft h).symm, entries, rfl⟩)
  | set members => cases hw

/-- The value is shown as some value that can be written is written on one line. -/
def IsShownAsJson (layout : Layout) (v : Value) : Prop :=
  ∃ depth w, isWritable w = true ∧ v.quoted = printAt layout depth w

theorem not_isShownAsJson {v : Value} {c : Char} {t : List Char} (hv : v.quoted = c :: t)
    (hc : ¬IsScalarHead c ∧ c ≠ '[' ∧ c ≠ '\x7b') : ¬IsShownAsJson layout v := by
  rintro ⟨depth, w, hw, heq⟩
  rcases head_of_printAt_eq hw (heq.symm.trans hv) with h | ⟨h, -⟩ | ⟨h, -⟩
  · exact hc.1 h
  · exact hc.2.1 h
  · exact hc.2.2 h

theorem exists_list_of_quoted_eq {w : Value} (hw : isWritable w = true) {t : List Char}
    (h : printAt layout depth w = '[' :: t) : ∃ items, w = .list items := by
  rcases head_of_printAt_eq hw h with h | ⟨-, h⟩ | ⟨h, -⟩
  · exact absurd h (by decide)
  · exact h
  · exact absurd h (by decide)

theorem exists_map_of_quoted_eq {w : Value} (hw : isWritable w = true) {t : List Char}
    (h : printAt layout depth w = '\x7b' :: t) : ∃ entries, w = .map entries := by
  rcases head_of_printAt_eq hw h with h | ⟨h, -⟩ | ⟨-, h⟩
  · exact absurd h (by decide)
  · exact absurd h (by decide)
  · exact h

/-- Items of a list that is shown as JSON are. -/
theorem IsShownAsJson.item (hl : layout.indent = none) {items : List Value}
    (h : IsShownAsJson layout (.list items)) {v : Value} (hv : v ∈ items) : IsShownAsJson layout v := by
  obtain ⟨depth, w, hw, heq⟩ := h
  rw [Value.quoted] at heq
  obtain ⟨items', rfl⟩ := exists_list_of_quoted_eq hw heq.symm
  rw [printAt, enclose_of_indent_eq_none hl] at heq
  have hitems : quotedItems items = printItems layout (depth + 1) items' := by
    refine joinWith_injective (fun m hm => ⟨closed_of_mem_quotedItems items m hm, ?_⟩)
      (fun m hm => ⟨closed_of_mem_printItems layout _ items' m hm, ?_⟩) (by simpa using heq)
    · rw [quotedItems_eq_map] at hm
      obtain ⟨v, -, rfl⟩ := List.mem_map.mp hm
      exact v.quoted_ne_nil
    · rw [printItems_eq_map] at hm
      obtain ⟨v, -, rfl⟩ := List.mem_map.mp hm
      exact printAt_ne_nil v
  rw [quotedItems_eq_map, printItems_eq_map] at hitems
  obtain ⟨w, hmem, htext⟩ := List.mem_map.mp (hitems ▸ List.mem_map_of_mem hv)
  exact ⟨depth + 1, w, areWritable_iff.mp hw w hmem, htext.symm⟩

/-- The members of what is shown between braces are those of a JSON object, if the text is one. -/
theorem exists_memberText_eq (hl : layout.indent = none) {v : Value} (h : IsShownAsJson layout v)
    {members : List (List Char)} (hv : v.quoted = '\x7b' :: joinWith [',', ' '] members ++ ['\x7d'])
    (hmembers : ∀ m ∈ members, Closed m ∧ m ≠ []) : ∀ m ∈ members, ∃ depth e,
      isWritable e.2 = true ∧ memberText layout depth e = m := by
  obtain ⟨depth, w, hw, heq⟩ := h
  obtain ⟨entries, rfl⟩ := exists_map_of_quoted_eq hw (heq.symm.trans hv)
  rw [hv, printAt_map hl] at heq
  have hall : members = memberTexts layout (depth + 1) entries :=
    joinWith_injective hmembers (fun _ => closed_of_mem_memberTexts) (by simpa using heq)
  intro m hm
  obtain ⟨e, he, htext⟩ := mem_memberTexts.mp (hall ▸ hm)
  exact ⟨depth + 1, e, ((isWritable_map_iff.mp hw).2 e he).2, htext⟩

/-- Entries of a map that is shown as JSON have texts as keys, and their values are. -/
theorem IsShownAsJson.entry (hl : layout.indent = none) {entries : List (Scalar × Value)}
    (h : IsShownAsJson layout (.map entries)) {e : Scalar × Value} (he : e ∈ entries) :
    (∃ s, e.1 = .text s) ∧ IsShownAsJson layout e.2 := by
  have hmembers : ∀ m ∈ quotedEntries entries, Closed m ∧ m ≠ [] := by
    refine fun m hm => ⟨closed_of_mem_quotedEntries entries m hm, ?_⟩
    rw [quotedEntries_eq_map] at hm
    obtain ⟨e, -, rfl⟩ := List.mem_map.mp hm
    simp
  have hmem : e.1.quoted ++ [':', ' '] ++ e.2.quoted ∈ quotedEntries entries := by
    rw [quotedEntries_eq_map]
    exact List.mem_map_of_mem he
  obtain ⟨depth, e', hw, htext⟩ := exists_memberText_eq hl h (by rw [Value.quoted]) hmembers _ hmem
  rw [memberText, List.append_assoc, List.append_assoc] at htext
  obtain ⟨hkey, hrest⟩ := eq_text_of_quoted_eq htext.symm
  exact ⟨hkey, depth, e'.2, hw, (List.append_cancel_left hrest)⟩

theorem not_isShownAsJson_set (hl : layout.indent = none) (members : List Scalar) :
    ¬IsShownAsJson layout (.set members) := by
  cases members with
  | nil => exact not_isShownAsJson (by rw [Value.quoted]; rfl) (by decide)
  | cons s members =>
    intro h
    have hmembers : ∀ m ∈ (s :: members).map Scalar.quoted, Closed m ∧ m ≠ [] := by
      intro m hm
      obtain ⟨s, -, rfl⟩ := List.mem_map.mp hm
      exact ⟨s.closed_quoted, s.quoted_ne_nil⟩
    obtain ⟨depth, e, -, htext⟩ := exists_memberText_eq hl h (Value.quoted_set_cons s members) hmembers
      s.quoted List.mem_cons_self
    rw [memberText, List.append_assoc, ← List.append_nil s.quoted] at htext
    cases (eq_text_of_quoted_eq htext.symm).2

mutual

/-- **A value that is shown as a JSON text can be written.** -/
theorem IsShownAsJson.isWritable (hl : layout.indent = none) :
    (v : Value) → IsShownAsJson layout v → isWritable v = true
  | .scalar s, h => by
    rw [Json.isWritable]
    have hhead : ∀ {c : Char} {t : List Char}, s.quoted = c :: t →
        ¬(¬IsScalarHead c ∧ c ≠ '[' ∧ c ≠ '\x7b') := fun hs hc =>
      not_isShownAsJson (by rw [Value.quoted]; exact hs) hc h
    cases s with
    | bytes bs => exact absurd (by decide) (hhead (c := 'b') rfl)
    | date d => exact absurd (by decide) (hhead (c := 'd') rfl)
    | time t => exact absurd (by decide) (hhead (c := 'd') rfl)
    | null => rfl
    | bool b => rfl
    | int n => rfl
    | real x => rfl
    | text s => rfl
  | .list items, h => by
    rw [Json.isWritable, areWritable_iff]
    exact isWritable_of_mem_items hl items fun v hv => h.item hl hv
  | .map entries, h => by
    refine isWritable_map_of_forall_text (fun e he => (h.entry hl he).1) ?_
    exact isWritable_of_mem_entries hl entries fun e he => (h.entry hl he).2
  | .set members, h => absurd h (not_isShownAsJson_set hl members)

theorem isWritable_of_mem_items (hl : layout.indent = none) :
    (items : List Value) → (∀ v ∈ items, IsShownAsJson layout v) →
      ∀ v ∈ items, isWritable v = true
  | [], _ => List.forall_mem_nil _
  | v :: vs, h =>
    List.forall_mem_cons.mpr ⟨IsShownAsJson.isWritable hl v (h v List.mem_cons_self),
      isWritable_of_mem_items hl vs fun x hx => h x (List.mem_cons_of_mem _ hx)⟩

theorem isWritable_of_mem_entries (hl : layout.indent = none) :
    (entries : List (Scalar × Value)) → (∀ e ∈ entries, IsShownAsJson layout e.2) →
      ∀ e ∈ entries, isWritable e.2 = true
  | [], _ => List.forall_mem_nil _
  | (k, v) :: es, h =>
    List.forall_mem_cons.mpr ⟨IsShownAsJson.isWritable hl v (h (k, v) List.mem_cons_self),
      isWritable_of_mem_entries hl es fun x hx => h x (List.mem_cons_of_mem _ hx)⟩

end

end Layering
