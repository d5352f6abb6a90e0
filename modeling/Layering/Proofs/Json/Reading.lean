import Layering.Proofs.Json.Delimited

/-!
# Reading JSON strings back

The reader splits a string off at its closing quote, reads units and characters from it and joins the
units of surrogate pairs. For each form of a character (`Written`) these steps give the character back,
unless it is the first half of a pair and the second half follows. So a text without a split pair is
read back from its string (`readString?_flatMap_escapeChar`).
-/

namespace Layering.Json

open Text

/-! ## Splitting a string off -/

/-- The reader passes over what may stand in a string, on its way to the closing quote. -/
theorem splitString?_append {w : List Char} (h : Inside .double w) (read t : List Char) :
    splitString? read (w ++ t) = splitString? (w.reverse ++ read) t := by
  induction h generalizing read with
  | nil => rfl
  | cons hquote hslash _ ih =>
    rw [List.cons_append, splitString?, ih, List.reverse_cons, List.append_assoc]
    · rfl
    · exact hquote
    · exact fun _ _ heq => absurd heq hslash
  | escape c _ ih =>
    rw [List.cons_append, List.cons_append, splitString?, ih, List.reverse_cons, List.reverse_cons,
      List.append_assoc, List.append_assoc]
    rfl

theorem mem_hexDigits {width n : ℕ} {c : Char} (h : c ∈ hexDigits width n) :
    ∃ d < 16, c = hexDigit d := by
  induction width generalizing n with
  | zero => cases h
  | succ w ih =>
    rcases List.mem_append.mp h with h | h
    · exact ih h
    · exact ⟨n % 16, Nat.mod_lt _ (by decide), List.mem_singleton.mp h⟩

theorem hexDigit_lt : ∀ d < 16, (hexDigit d).toNat < 0x7f := by decide

theorem Written.eq_of_not_mem {layout : Layout} {c : Char} {w : List Char} (h : Written layout c w)
    (hw : '\\' ∉ w) : w = [c] := by
  cases h with
  | self _ _ _ => rfl
  | short _ _ => exact absurd List.mem_cons_self hw
  | unit _ => exact absurd List.mem_cons_self hw
  | pair _ => exact absurd List.mem_cons_self hw

theorem lt_of_unescape? {x c : Char} (h : unescape? x = some c) : x.toNat < 0x7f := by
  unfold unescape? at h
  split at h
  case h_9 => cases h
  all_goals decide

/-- Where characters outside ASCII are escaped, none of them is written. -/
theorem Written.lt_of_mem {layout : Layout} (hascii : layout.ascii = true) {c : Char} {w : List Char}
    (h : Written layout c w) : ∀ x ∈ w, x.toNat < 0x7f := by
  have hunit : ∀ n, ∀ x ∈ escapeUnit n, x.toNat < 0x7f := by
    refine fun n => List.forall_mem_cons.mpr ⟨by decide, List.forall_mem_cons.mpr ⟨by decide, ?_⟩⟩
    intro x hx
    obtain ⟨d, hd, rfl⟩ := mem_hexDigits hx
    exact hexDigit_lt d hd
  cases h with
  | self _ _ hlt => exact List.forall_mem_singleton.mpr (hlt hascii)
  | short hx _ =>
    exact List.forall_mem_cons.mpr ⟨by decide, List.forall_mem_singleton.mpr (lt_of_unescape? hx)⟩
  | unit _ => exact hunit _
  | pair _ => exact List.forall_mem_append.mpr ⟨hunit _, hunit _⟩

/-! ## Reading units -/

/-- The characters and units that a text is read as. -/
def ReadsAs (t : List Char) (us : List (Char ⊕ ℕ)) : Prop :=
  ∀ fuel, t.length ≤ fuel → readUnits? fuel t = some us

theorem readsAs_nil : ReadsAs [] [] := by
  intro fuel _
  cases fuel <;> rfl

variable {t : List Char} {us : List (Char ⊕ ℕ)}

theorem ReadsAs.cons (h : ReadsAs t us) {c : Char} (hslash : c ≠ '\\') :
    ReadsAs (c :: t) (.inl c :: us) := by
  intro fuel hfuel
  cases fuel with
  | zero => simp at hfuel
  | succ fuel =>
    rw [readUnits?, h fuel (by simpa using hfuel)]
    · rfl
    · exact fun _ heq _ => absurd heq hslash
    · exact fun _ _ heq _ => absurd heq hslash

theorem ReadsAs.short (h : ReadsAs t us) {x c : Char} (hx : unescape? x = some c) (hu : x ≠ 'u') :
    ReadsAs ('\\' :: x :: t) (.inl c :: us) := by
  intro fuel hfuel
  cases fuel with
  | zero => simp at hfuel
  | succ fuel =>
    rw [readUnits?, hx, h fuel (by simp at hfuel; omega)]
    · rfl
    · exact hu

theorem digitIn?_hexDigit : ∀ d < 16, digitIn? 16 (hexDigit d) = some d := by decide

theorem readUnit?_hexDigits {n : ℕ} (h : n < 0x10000) (t : List Char) :
    readUnit? (hexDigits 4 n ++ t) = some (n, t) := by
  have hdigit : ∀ m, digitIn? 16 (hexDigit (m % 16)) = some (m % 16) :=
    fun m => digitIn?_hexDigit _ (Nat.mod_lt _ (by decide))
  have hvalue : number? 16 (hexDigits 4 n) = some n := by
    have hdigits : hexDigits 4 n = [hexDigit (n / 16 / 16 / 16 % 16), hexDigit (n / 16 / 16 % 16),
        hexDigit (n / 16 % 16), hexDigit (n % 16)] := rfl
    rw [hdigits, number?, if_neg (by simp)]
    simp only [List.foldlM_cons, List.foldlM_nil, hdigit, Option.map_some, Option.bind_eq_bind,
      Option.bind_some, Option.pure_def, Option.some.injEq]
    omega
  calc readUnit? (hexDigits 4 n ++ t) = (number? 16 (hexDigits 4 n)).map (·, t) := rfl
    _ = some (n, t) := by rw [hvalue, Option.map_some]

theorem ReadsAs.unit (h : ReadsAs t us) {n : ℕ} (hn : n < 0x10000) :
    ReadsAs (escapeUnit n ++ t) (.inr n :: us) := by
  intro fuel hfuel
  have hlength : (escapeUnit n ++ t).length = t.length + 6 := rfl
  cases fuel with
  | zero => omega
  | succ fuel =>
    rw [escapeUnit, List.cons_append, List.cons_append, readUnits?, readUnit?_hexDigits hn]
    change (readUnits? fuel t >>= fun rest => some (.inr n :: rest)) = _
    rw [h fuel (by omega)]
    rfl

/-! ## Joining units -/

/-- Units that begin with a second half of a pair. -/
def StartsLow (us : List (Char ⊕ ℕ)) : Prop :=
  ∃ lo, us.head? = some (.inr lo) ∧ 0xdc00 ≤ lo ∧ lo < 0xe000

/-- A unit is joined to the one after it only if the two are the halves of a pair. -/
theorem joinUnits_unit {c : Char} {us : List (Char ⊕ ℕ)} (h : ¬(IsHigh c ∧ StartsLow us)) :
    joinUnits (.inr (codePoint c) :: us) = c :: joinUnits us := by
  have hself := ofCodePoint_codePoint c
  rcases us with _ | ⟨d | lo, us⟩
  · exact congrArg (· :: joinUnits []) hself
  · exact congrArg (· :: joinUnits (.inl d :: us)) hself
  · have hsplit : ¬(0xd800 ≤ codePoint c ∧ codePoint c < 0xdc00 ∧ 0xdc00 ≤ lo ∧ lo < 0xe000) :=
      fun ⟨hlo, hhi, hlow⟩ => h ⟨⟨hlo, hhi⟩, lo, rfl, hlow⟩
    rw [joinUnits, if_neg hsplit, hself]

theorem joinUnits_pair {c : Char} (h : 0x10000 ≤ c.toNat) (us : List (Char ⊕ ℕ)) :
    joinUnits (.inr (0xd800 + (c.toNat - 0x10000) / 0x400) ::
      .inr (0xdc00 + (c.toNat - 0x10000) % 0x400) :: us) = c :: joinUnits us := by
  have hvalid := toNat_valid c
  have hnumber : 0x10000 + (0xd800 + (c.toNat - 0x10000) / 0x400 - 0xd800) * 0x400 +
      (0xdc00 + (c.toNat - 0x10000) % 0x400 - 0xdc00) = c.toNat := by
    omega
  rw [joinUnits, if_pos (by omega), hnumber, Char.ofNat_toNat]

/-- What a form of a character is read as: the character itself, its unit, or the two halves of its
pair. -/
structure IsReadOf (c : Char) (w : List Char) (vs : List (Char ⊕ ℕ)) : Prop where
  ne_nil : vs ≠ []
  reads : ∀ {t us}, ReadsAs t us → ReadsAs (w ++ t) (vs ++ us)
  startsLow : StartsLow vs → IsLow c
  joins : ∀ {us}, ¬(IsHigh c ∧ StartsLow us) → joinUnits (vs ++ us) = c :: joinUnits us

theorem not_startsLow_inl (c : Char) (us : List (Char ⊕ ℕ)) : ¬StartsLow (.inl c :: us) := by
  rintro ⟨lo, hlo, -⟩
  cases hlo

/-- Reading a form of a character gives what the character is joined from. -/
theorem Written.exists_isReadOf {layout : Layout} {c : Char} {w : List Char}
    (h : Written layout c w) : ∃ vs, IsReadOf c w vs := by
  cases h with
  | self _ hslash _ =>
    exact ⟨[.inl c], List.cons_ne_nil _ _, fun ht => ht.cons hslash,
      fun hlow => absurd hlow (not_startsLow_inl c []), fun _ => rfl⟩
  | short hx hu =>
    exact ⟨[.inl c], List.cons_ne_nil _ _, fun ht => ht.short hx hu,
      fun hlow => absurd hlow (not_startsLow_inl c []), fun _ => rfl⟩
  | unit hlt =>
    refine ⟨[.inr (codePoint c)], List.cons_ne_nil _ _, fun ht => ht.unit hlt, ?_, joinUnits_unit⟩
    rintro ⟨lo, hlo, hlow⟩
    cases hlo
    exact hlow
  | pair hle =>
    have hvalid := toNat_valid c
    have hnumber : 0x10000 ≤ c.toNat := hle.trans (codePoint_le c)
    refine ⟨[.inr _, .inr _], List.cons_ne_nil _ _, fun {t us} ht => ?_, ?_,
      fun _ => joinUnits_pair hnumber _⟩
    · rw [List.append_assoc]
      exact (ht.unit (by omega)).unit (by omega)
    · -- the first half is not a second half
      rintro ⟨lo, hlo, hlow⟩
      cases hlo
      omega

/-! ## Strings -/

variable {layout : Layout}

/-- A text whose string has no backslash is its own string. -/
theorem flatMap_escapeChar_of_not_mem {s : List Char} (h : '\\' ∉ s.flatMap (escapeChar layout)) :
    s.flatMap (escapeChar layout) = s := by
  induction s with
  | nil => rfl
  | cons c s ih =>
    rw [List.flatMap_cons, List.mem_append, not_or] at h
    rw [List.flatMap_cons, ih h.2, (written_escapeChar layout c).eq_of_not_mem h.1,
      List.singleton_append]

theorem exists_units_flatMap_escapeChar (layout : Layout) {s : List Char} (h : HasNoSplitPair s) :
    ∃ us, ReadsAs (s.flatMap (escapeChar layout)) us ∧ joinUnits us = s ∧
      (StartsLow us → ∃ c, s.head? = some c ∧ IsLow c) := by
  induction s with
  | nil =>
    refine ⟨[], readsAs_nil, rfl, ?_⟩
    rintro ⟨lo, hlo, -⟩
    cases hlo
  | cons c s ih =>
    obtain ⟨hc, hs⟩ := List.isChain_cons.mp h
    obtain ⟨us, hreads, hjoin, hlow⟩ := ih hs
    obtain ⟨vs, hvs⟩ := (written_escapeChar layout c).exists_isReadOf
    have hsplit : ¬(IsHigh c ∧ StartsLow us) := by
      rintro ⟨hhigh, hus⟩
      obtain ⟨d, hd, hdlow⟩ := hlow hus
      exact hc d hd ⟨hhigh, hdlow⟩
    rw [List.flatMap_cons]
    refine ⟨vs ++ us, hvs.reads hreads, by rw [hvs.joins hsplit, hjoin], ?_⟩
    rintro ⟨lo, hlo, hlow⟩
    rw [List.head?_append_of_ne_nil _ hvs.ne_nil] at hlo
    exact ⟨c, rfl, hvs.startsLow ⟨lo, hlo, hlow⟩⟩

/-- **A text without a split pair is read back from its string.** -/
theorem readString?_flatMap_escapeChar {s : List Char} (h : HasNoSplitPair s) (rest : List Char) :
    readString? (s.flatMap (escapeChar layout) ++ '"' :: rest) = some (s, rest) := by
  have hsplit : splitString? [] (s.flatMap (escapeChar layout) ++ '"' :: rest) =
      some (s.flatMap (escapeChar layout), rest) := by
    rw [splitString?_append (inside_flatMap_escapeChar layout s), splitString?, List.append_nil,
      List.reverse_reverse]
  obtain ⟨us, hreads, hjoin, -⟩ := exists_units_flatMap_escapeChar layout h
  rw [readString?, hsplit]
  by_cases hslash : '\\' ∈ s.flatMap (escapeChar layout)
  · have hunits := hreads _ (Nat.le_refl _)
    simp only [Option.bind_eq_bind, Option.bind_some, List.contains_iff_mem.mpr hslash, if_true, hunits,
      hjoin, Option.pure_def]
  · have hself := flatMap_escapeChar_of_not_mem hslash
    have hnone : ¬s.contains '\\' = true := by
      rw [hself] at hslash
      simpa using hslash
    simp only [hself, Option.bind_eq_bind, Option.bind_some, if_neg hnone, Option.pure_def]

/-! ## Values -/

/-- The last member of an object ends the object. -/
theorem readMembers?_last {fuel : ℕ} {read : List (Scalar × Value)} {s t rest key : List Char}
    {v : Value} (hkey : readString? s = some (key, ':' :: t))
    (hvalue : readValue? fuel t = some (v, '\x7d' :: rest)) : readMembers? (fuel + 1) read ('"' :: s) =
      some (.map (Entries.ofList ((.text (String.ofList key), v) :: read).reverse), rest) := by
  have hquote : skipBlanks ('"' :: s) = '"' :: s := rfl
  have hcolon : skipBlanks (':' :: t) = ':' :: t := rfl
  have hend : skipBlanks ('\x7d' :: rest) = '\x7d' :: rest := rfl
  simp only [readMembers?, hquote, hkey, hcolon, hvalue, hend]

theorem readValue?_printString {s : List Char} (h : HasNoSplitPair s) (fuel : ℕ) (rest : List Char) :
    readValue? (fuel + 1) (printString layout s ++ rest) = some (.str (String.ofList s), rest) := by
  calc readValue? (fuel + 1) (printString layout s ++ rest)
      = (readString? (s.flatMap (escapeChar layout) ++ ['"'] ++ rest)).map
          fun p => (.str (String.ofList p.1), p.2) := rfl
    _ = some (.str (String.ofList s), rest) := by
      rw [List.append_assoc, List.singleton_append, readString?_flatMap_escapeChar h,
        Option.map_some]

end Layering.Json
