import Layering.Text.Basic
import Mathlib.Data.Nat.Notation
import Mathlib.Tactic.SplitIfs

/-!
# Texts that delimit themselves

A text is scanned character by character, keeping track of the strings and brackets that are open.
Strings stand between quotes of either kind. Outside them the scan refuses two colons in a row, a
backslash, a bracket that closes none, and a comma outside all brackets. A text is closed if it is
scanned to its end and leaves the scan where it began. What comes after two colons inside a closed
text is not closed (`not_closed_after_colons`), so a text in front of two colons can be told apart
from the closed text after them; and closed members separated by commas can be told apart
(`joinWith_injective`).
-/

namespace Layering.Text

/-- The two kinds of quotes. -/
inductive Quote where
  | single
  | double
deriving DecidableEq

/-- A quote as a character. -/
def Quote.char : Quote → Char
  | single => '\''
  | double => '"'

theorem Quote.char_injective {a b : Quote} (h : a.char = b.char) : a = b := by
  cases a <;> cases b <;> first | rfl | exact absurd h (by decide)

theorem Quote.char_ne_slash (a : Quote) : a.char ≠ '\\' := by
  cases a <;> decide

/-- What a scan has just read: a character outside strings, a colon there, a character inside a
string, or a backslash there. -/
inductive Mode where
  | plain
  | colon
  | string (a : Quote)
  | escape (a : Quote)
deriving DecidableEq

/-- Whether what was just read stands outside strings. -/
def Mode.IsOutside (m : Mode) : Prop := m = .plain ∨ m = .colon

/-- A position in a text: what was just read, and the number of brackets that are open. -/
structure Position where
  mode : Mode
  depth : ℕ

/-- The position after a character, if the character may stand there. -/
def Position.next : Position → Char → Option Position
  | ⟨.escape a, d⟩, _ => some ⟨.string a, d⟩
  | ⟨.string a, d⟩, c =>
    some ⟨if c = a.char then .plain else if c = '\\' then .escape a else .string a, d⟩
  | ⟨m, d⟩, c =>
    if c = Quote.single.char then some ⟨.string .single, d⟩
    else if c = Quote.double.char then some ⟨.string .double, d⟩
    else if c = ':' then if m = .colon then none else some ⟨.colon, d⟩
    else if c ∈ ['(', '[', '\x7b'] then some ⟨.plain, d + 1⟩
    else if c ∈ [')', ']', '\x7d'] then if d = 0 then none else some ⟨.plain, d - 1⟩
    else if c = '\\' ∨ c = ',' ∧ d = 0 then none
    else some ⟨.plain, d⟩

/-- The position after a text, if the text may stand at the position before it. -/
def scan (p : Position) (t : List Char) : Option Position := t.foldlM Position.next p

@[simp] theorem scan_nil (p : Position) : scan p [] = some p := rfl

@[simp] theorem scan_cons (p : Position) (c : Char) (t : List Char) :
    scan p (c :: t) = (p.next c).bind (scan · t) := by
  simp [scan, List.foldlM_cons]

theorem scan_append (p : Position) (t u : List Char) :
    scan p (t ++ u) = (scan p t).bind (scan · u) := by
  simp [scan, List.foldlM_append]

/-- A text leads from a position back to it. -/
def Keeps (p : Position) (t : List Char) : Prop := scan p t = some p

theorem Keeps.scan_append {p : Position} {t : List Char} (ht : Keeps p t) (u : List Char) :
    scan p (t ++ u) = scan p u := by
  rw [Text.scan_append, ht, Option.bind_some]

theorem Keeps.append {p : Position} {t u : List Char} (ht : Keeps p t) (hu : Keeps p u) :
    Keeps p (t ++ u) :=
  (ht.scan_append u).trans hu

theorem Keeps.cons {p : Position} {c : Char} {t : List Char} (hc : p.next c = some p)
    (ht : Keeps p t) : Keeps p (c :: t) := by
  rw [Keeps, scan_cons, hc]
  exact ht

theorem keeps_joinWith {p : Position} {sep : List Char} {members : List (List Char)}
    (hsep : Keeps p sep) (h : ∀ m ∈ members, Keeps p m) : Keeps p (joinWith sep members) := by
  induction members with
  | nil => rfl
  | cons m ms ih =>
    have hm := h m List.mem_cons_self
    have hms := ih fun x hx => h x (List.mem_cons_of_mem _ hx)
    cases ms with
    | nil => exact hm
    | cons m' ms => exact (hm.append hsep).append hms

/-- A text that may stand wherever a value may, and that leaves no string or bracket open. -/
def Closed (t : List Char) : Prop := ∀ d, Keeps ⟨.plain, d⟩ t

theorem Closed.append {t u : List Char} (ht : Closed t) (hu : Closed u) : Closed (t ++ u) :=
  fun d => (ht d).append (hu d)

/-! ## Characters without a meaning -/

/-- A character without a meaning outside strings. -/
def IsInert (c : Char) : Prop :=
  c ∉ ['\'', '"', '\\', ':', ',', '(', ')', '[', ']', '\x7b', '\x7d']

instance (c : Char) : Decidable (IsInert c) := inferInstanceAs (Decidable (c ∉ _))

theorem next_of_isInert {c : Char} (h : IsInert c) (d : ℕ) :
    Position.next ⟨.plain, d⟩ c = some ⟨.plain, d⟩ := by
  simp only [IsInert, List.mem_cons, List.not_mem_nil, or_false, not_or] at h
  simp [Position.next, Quote.char, h]

theorem closed_of_forall_isInert {t : List Char} (h : ∀ c ∈ t, IsInert c) : Closed t := by
  intro d
  induction t with
  | nil => rfl
  | cons c t ih =>
    exact (ih fun x hx => h x (List.mem_cons_of_mem _ hx)).cons
      (next_of_isInert (h c List.mem_cons_self) d)

theorem closed_of_all_isInert {t : List Char} (h : t.all (IsInert ·) = true) : Closed t :=
  closed_of_forall_isInert fun c hc => of_decide_eq_true (List.all_eq_true.mp h c hc)

/-! ## Strings -/

/-- What may stand between two quotes of one kind: other characters, and any one after a backslash. -/
inductive Inside (a : Quote) : List Char → Prop where
  | nil : Inside a []
  | cons {c : Char} {t : List Char} (hquote : c ≠ a.char) (hslash : c ≠ '\\') (ht : Inside a t) :
      Inside a (c :: t)
  | escape (c : Char) {t : List Char} (ht : Inside a t) : Inside a ('\\' :: c :: t)

variable {a : Quote}

theorem Inside.append {t u : List Char} (ht : Inside a t) (hu : Inside a u) : Inside a (t ++ u) := by
  induction ht with
  | nil => exact hu
  | cons hquote hslash _ ih => exact .cons hquote hslash ih
  | escape c _ ih => exact .escape c ih

theorem inside_flatMap {α : Type} {f : α → List Char} {l : List α} (h : ∀ x ∈ l, Inside a (f x)) :
    Inside a (l.flatMap f) := by
  induction l with
  | nil => exact .nil
  | cons x l ih =>
    rw [List.flatMap_cons]
    exact (h x List.mem_cons_self).append (ih fun y hy => h y (List.mem_cons_of_mem _ hy))

theorem hexDigit_ne : ∀ n < 16, hexDigit n ≠ '\'' ∧ hexDigit n ≠ '"' ∧ hexDigit n ≠ '\\' := by decide

theorem inside_hexDigits (a : Quote) (width n : ℕ) : Inside a (hexDigits width n) := by
  induction width generalizing n with
  | zero => exact .nil
  | succ width ih =>
    obtain ⟨hsingle, hdouble, hslash⟩ := hexDigit_ne (n % 16) (Nat.mod_lt _ (by decide))
    refine (ih (n / 16)).append (.cons ?_ hslash .nil)
    cases a with
    | single => exact hsingle
    | double => exact hdouble

theorem Inside.keeps {t : List Char} (h : Inside a t) (d : ℕ) : Keeps ⟨.string a, d⟩ t := by
  induction h with
  | nil => rfl
  | cons hquote hslash _ ih => exact ih.cons (by simp [Position.next, hquote, hslash])
  | escape c _ ih =>
    have hslash : ¬('\\' = a.char) := fun h => a.char_ne_slash h.symm
    rw [Keeps, scan_cons, Position.next, if_neg hslash, if_pos rfl]
    exact ih

theorem Inside.closed {t : List Char} (h : Inside a t) : Closed (a.char :: t ++ [a.char]) := by
  intro d
  have hopen : Position.next ⟨.plain, d⟩ a.char = some ⟨.string a, d⟩ := by
    cases a <;> rfl
  rw [Keeps, List.cons_append, scan_cons, hopen, Option.bind_some, (h.keeps d).scan_append, scan_cons,
    Position.next, if_pos rfl]
  rfl

/-- A string ends at the first quote that is not escaped. -/
theorem Inside.eq_of_append_eq {t t' u u' : List Char} (h : Inside a t) (h' : Inside a t')
    (heq : t ++ a.char :: u = t' ++ a.char :: u') : t = t' ∧ u = u' := by
  induction h generalizing t' with
  | nil =>
    cases h' with
    | nil => exact ⟨rfl, (List.cons.inj heq).2⟩
    | cons hquote _ _ => exact absurd (List.cons.inj heq).1.symm hquote
    | escape c _ => exact absurd (List.cons.inj heq).1 a.char_ne_slash
  | cons hquote hslash _ ih =>
    cases h' with
    | nil => exact absurd (List.cons.inj heq).1 hquote
    | cons _ _ ht' =>
      obtain ⟨hc, htail⟩ := List.cons.inj heq
      obtain ⟨rfl, hu⟩ := ih ht' htail
      exact ⟨by rw [hc], hu⟩
    | escape c _ => exact absurd (List.cons.inj heq).1 hslash
  | escape c _ ih =>
    cases h' with
    | nil => exact absurd (List.cons.inj heq).1.symm a.char_ne_slash
    | cons _ hslash _ => exact absurd (List.cons.inj heq).1.symm hslash
    | escape c' ht' =>
      obtain ⟨hc, htail⟩ := List.cons.inj (List.cons.inj heq).2
      obtain ⟨rfl, hu⟩ := ih ht' htail
      exact ⟨by rw [hc], hu⟩

/-! ## Brackets -/

/-- The three kinds of brackets. -/
def IsBrackets (left right : Char) : Prop :=
  left = '(' ∧ right = ')' ∨ left = '[' ∧ right = ']' ∨ left = '\x7b' ∧ right = '\x7d'

variable {left right : Char} {members : List (List Char)}

theorem closed_bracketed (hb : IsBrackets left right) {t : List Char}
    (h : ∀ d, Keeps ⟨.plain, d + 1⟩ t) : Closed (left :: t ++ [right]) := by
  intro d
  rcases hb with ⟨rfl, rfl⟩ | ⟨rfl, rfl⟩ | ⟨rfl, rfl⟩
  · exact (h d).scan_append [')']
  · exact (h d).scan_append [']']
  · exact (h d).scan_append ['\x7d']

/-- Between brackets a comma may stand in front of what is closed. -/
theorem Closed.keeps_comma {t : List Char} (h : Closed t) (d : ℕ) :
    Keeps ⟨.plain, d + 1⟩ (',' :: t) :=
  h (d + 1)

/-- Closed members between brackets are closed, separated by commas with a closed text after each. -/
theorem closed_members (hb : IsBrackets left right) {blank : List Char} (hblank : Closed blank)
    (h : ∀ m ∈ members, Closed m) : Closed (left :: joinWith (',' :: blank) members ++ [right]) :=
  closed_bracketed hb fun d => keeps_joinWith (hblank.keeps_comma d) fun m hm => h m hm _

theorem closed_space : Closed [' '] := closed_of_all_isInert (by decide)

/-! ## Two colons in a row -/

theorem Mode.IsOutside.next {m : Mode} {d : ℕ} {p : Position} {c : Char} (hm : m.IsOutside)
    (h : Position.next ⟨m, d⟩ c = some p) :
    (∃ a : Quote, c = a.char ∧ p.mode = .string a) ∨
      (∀ a : Quote, c ≠ a.char) ∧ c ≠ '\\' ∧ p.mode.IsOutside := by
  have hother : c ≠ Quote.single.char → c ≠ Quote.double.char → ∀ a : Quote, c ≠ a.char := by
    intro hsingle hdouble a
    cases a with
    | single => exact hsingle
    | double => exact hdouble
  rw [Position.next.eq_def] at h
  rcases hm with rfl | rfl <;>
  · dsimp only at h
    split_ifs at h with hsingle hdouble <;> cases h
    · exact .inl ⟨.single, hsingle, rfl⟩
    · exact .inl ⟨.double, hdouble, rfl⟩
    all_goals
      refine .inr ⟨hother hsingle hdouble, by grind, ?_⟩
      first | exact .inl rfl | exact .inr rfl

/-- What two scans of one text have just read when they cannot both be outside strings any more: one of
them is inside a string and the other one is outside, or inside one with other quotes. -/
inductive Opposed : Mode → Mode → Prop where
  | left (a : Quote) {m : Mode} (hm : m.IsOutside) : Opposed (.string a) m
  | right (a : Quote) {m : Mode} (hm : m.IsOutside) : Opposed m (.string a)
  | strings {a b : Quote} (hne : a ≠ b) : Opposed (.string a) (.string b)
  | escapes {a b : Quote} (hne : a ≠ b) : Opposed (.escape a) (.escape b)

theorem Opposed.symm {m n : Mode} (h : Opposed m n) : Opposed n m := by
  cases h with
  | left a hm => exact .right a hm
  | right a hm => exact .left a hm
  | strings hne => exact .strings hne.symm
  | escapes hne => exact .escapes hne.symm

theorem next_string (a : Quote) (c : Char) (d : ℕ) : Position.next ⟨.string a, d⟩ c =
    some ⟨if c = a.char then .plain else if c = '\\' then .escape a else .string a, d⟩ := rfl

/-- As no backslash stands outside strings, two scans of one text that are opposed stay so. -/
theorem Opposed.next {p q p' q' : Position} {c : Char} (h : Opposed p.mode q.mode)
    (hp : p.next c = some p') (hq : q.next c = some q') : Opposed p'.mode q'.mode := by
  have hleft : ∀ {a : Quote} {m : Mode} {d e : ℕ} {p' q' : Position}, m.IsOutside →
      Position.next ⟨.string a, d⟩ c = some p' → Position.next ⟨m, e⟩ c = some q' →
      Opposed p'.mode q'.mode := by
    intro a m d e p' q' hm hp hq
    cases hp
    dsimp only
    rcases hm.next hq with ⟨b, rfl, hq'⟩ | ⟨hquote, hslash, hq'⟩
    · rw [hq']
      by_cases hab : b.char = a.char
      · rw [if_pos hab]
        exact .right b (.inl rfl)
      · rw [if_neg hab, if_neg b.char_ne_slash]
        exact .strings fun heq => hab (by rw [heq])
    · rw [if_neg (hquote a), if_neg hslash]
      exact .left a hq'
  obtain ⟨m, d⟩ := p
  obtain ⟨n, e⟩ := q
  cases h with
  | left a hm => exact hleft hm hp hq
  | right a hm => exact (hleft hm hq hp).symm
  | @strings a b hne =>
    rw [next_string, Option.some.injEq] at hp hq
    subst hp hq
    by_cases ha : c = a.char
    · have hb : c ≠ b.char := fun hb => hne (Quote.char_injective (ha.symm.trans hb))
      have hslash : c ≠ '\\' := ha ▸ a.char_ne_slash
      rw [if_pos ha, if_neg hb, if_neg hslash]
      exact .right b (.inl rfl)
    · rw [if_neg ha]
      by_cases hb : c = b.char
      · have hslash : c ≠ '\\' := hb ▸ b.char_ne_slash
        rw [if_pos hb, if_neg hslash]
        exact .left a (.inl rfl)
      · rw [if_neg hb]
        by_cases hslash : c = '\\'
        · rw [if_pos hslash, if_pos hslash]
          exact .escapes hne
        · rw [if_neg hslash, if_neg hslash]
          exact .strings hne
  | escapes hne =>
    cases hp
    cases hq
    exact .strings hne

theorem Opposed.scan {p q p' q' : Position} {t : List Char} (h : Opposed p.mode q.mode)
    (hp : scan p t = some p') (hq : scan q t = some q') : Opposed p'.mode q'.mode := by
  induction t generalizing p q with
  | nil =>
    cases hp
    cases hq
    exact h
  | cons c t ih =>
    rw [scan_cons, Option.bind_eq_some_iff] at hp hq
    obtain ⟨p₁, hp₁, hp⟩ := hp
    obtain ⟨q₁, hq₁, hq⟩ := hq
    exact ih (h.next hp₁ hq₁) hp hq

theorem mode_eq_string_of_colons {p p₁ p₂ : Position} (h₁ : p.next ':' = some p₁)
    (h₂ : p₁.next ':' = some p₂) : ∃ a, p₂.mode = .string a := by
  have hstring : ∀ (a : Quote) (d : ℕ), Position.next ⟨.string a, d⟩ ':' = some ⟨.string a, d⟩ := by
    intro a d
    cases a <;> rfl
  obtain ⟨m, d⟩ := p
  cases m with
  | plain =>
    cases h₁
    cases h₂
  | colon => cases h₁
  | string a =>
    cases (hstring a d).symm.trans h₁
    cases (hstring a d).symm.trans h₂
    exact ⟨a, rfl⟩
  | escape a =>
    cases h₁
    cases (hstring a d).symm.trans h₂
    exact ⟨a, rfl⟩

/-- **What follows two colons inside a closed text is not closed.** The colons stand inside a string
there, so that a scan of the whole text is inside a string where a scan of the rest alone is
outside. -/
theorem not_closed_after_colons {x t : List Char} (h : Closed (x ++ ':' :: ':' :: t)) :
    ¬ Closed t := by
  intro ht
  have hscan := h 0
  rw [Keeps, scan_append, Option.bind_eq_some_iff] at hscan
  obtain ⟨p, -, hscan⟩ := hscan
  rw [scan_cons, Option.bind_eq_some_iff] at hscan
  obtain ⟨p₁, h₁, hscan⟩ := hscan
  rw [scan_cons, Option.bind_eq_some_iff] at hscan
  obtain ⟨p₂, h₂, hscan⟩ := hscan
  obtain ⟨a, ha⟩ := mode_eq_string_of_colons h₁ h₂
  have hopposed : Opposed p₂.mode Mode.plain := ha ▸ .left a (.inl rfl)
  -- both scans end outside strings, which opposed ones do not
  cases Opposed.scan (q := ⟨.plain, 0⟩) hopposed hscan (ht 0)

/-- A text in front of two colons can be told apart from the closed text after them, unless that
begins with a colon itself. -/
theorem append_colons_injective {x x' t t' : List Char} (ht : Closed t) (ht' : Closed t')
    (hhead : t.head? ≠ some ':') (hhead' : t'.head? ≠ some ':')
    (h : x ++ ':' :: ':' :: t = x' ++ ':' :: ':' :: t') : x = x' ∧ t = t' := by
  have hnone : ∀ {y t t' : List Char}, Closed t → Closed t' → t.head? ≠ some ':' →
      ':' :: ':' :: t = y ++ ':' :: ':' :: t' → y = [] := by
    intro y t t' ht ht' hhead h
    match y, h with
    | [], _ => rfl
    | [c], h =>
      simp only [List.cons_append, List.nil_append, List.cons.injEq] at h
      exact absurd (by rw [h.2.2]; rfl) hhead
    | c :: c' :: y, h =>
      simp only [List.cons_append, List.cons.injEq] at h
      rw [h.2.2] at ht
      exact absurd ht' (not_closed_after_colons ht)
  rcases List.append_eq_append_iff.mp h with ⟨y, rfl, hy⟩ | ⟨y, rfl, hy⟩
  · obtain rfl := hnone ht ht' hhead hy
    simpa using hy
  · obtain rfl := hnone ht' ht hhead' hy
    simpa [eq_comm] using hy

/-! ## Members -/

theorem not_closed_append_comma {t : List Char} (h : Closed t) (u : List Char) :
    ¬ Closed (t ++ ',' :: u) := by
  intro hc
  have hscan := hc 0
  rw [Keeps, (h 0).scan_append] at hscan
  cases hscan

theorem append_comma_injective {t t' u u' : List Char} (ht : Closed t) (ht' : Closed t')
    (h : t ++ ',' :: u = t' ++ ',' :: u') : t = t' ∧ u = u' := by
  rcases List.append_eq_append_iff.mp h with ⟨y, rfl, hy⟩ | ⟨y, rfl, hy⟩
  · cases y with
    | nil => simpa using hy
    | cons c y =>
      cases hy
      exact absurd ht' (not_closed_append_comma ht y)
  · cases y with
    | nil => simpa [eq_comm] using hy
    | cons c y =>
      cases hy
      exact absurd ht (not_closed_append_comma ht' y)

theorem joinWith_injective {ms ms' : List (List Char)} (h : ∀ m ∈ ms, Closed m ∧ m ≠ [])
    (h' : ∀ m ∈ ms', Closed m ∧ m ≠ [])
    (heq : joinWith [',', ' '] ms = joinWith [',', ' '] ms') : ms = ms' := by
  induction ms generalizing ms' with
  | nil =>
    match ms' with
    | [] => rfl
    | [m'] => exact absurd heq.symm (h' m' (by simp)).2
    | m' :: n' :: ms' => simp [joinWith] at heq
  | cons m ms ih =>
    obtain ⟨hm, hne⟩ := h m List.mem_cons_self
    match ms, ms' with
    | [], [] => exact absurd heq hne
    | n :: ms, [] => simp [joinWith] at heq
    | [], [m'] => exact congrArg (fun x => [x]) heq
    | [], m' :: n' :: ms' =>
      simp only [joinWith, List.append_assoc, List.cons_append] at heq
      exact absurd (heq ▸ hm) (not_closed_append_comma (h' m' (by simp)).1 _)
    | n :: ms, [m'] =>
      simp only [joinWith, List.append_assoc, List.cons_append] at heq
      exact absurd (heq ▸ (h' m' (by simp)).1) (not_closed_append_comma hm _)
    | n :: ms, m' :: n' :: ms' =>
      simp only [joinWith, List.append_assoc, List.cons_append] at heq
      obtain ⟨rfl, hrest⟩ := append_comma_injective hm (h' m' (by simp)).1 heq
      rw [ih (fun x hx => h x (List.mem_cons_of_mem _ hx))
        (fun x hx => h' x (List.mem_cons_of_mem _ hx)) (by simpa using hrest)]

end Layering.Text
