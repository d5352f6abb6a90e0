import Layering.Report.Markup
import Mathlib.Data.List.Basic
import Mathlib.Tactic.Common

/-!
# Reading markup

A reader of markup goes from character to character: a tag starts at `<`, and the value of an
attribute ends at the quote that it starts with. Tags are read with their attributes as they are
written, and what stands between tags character by character, so that the reading of a text is put
together from the readings of its parts (`Reads.append`). A text without `<` is read as its characters
(`reads_text`), and a tag that is written with well-formed attributes is read as that tag
(`reads_start`, `reads_empty`, `reads_stop`). What `attributeText` and `body` write is well-formed for
every text (`isWritten_quoted`, `lt_not_mem_body`).
-/

namespace Layering.Report.Markup

/-- A tag: a name, and attributes with their values as they are written. -/
structure Tag where
  name : List Char
  attributes : List (List Char × List Char)
deriving DecidableEq, Repr

/-- What a reader finds: a character outside of tags, a tag at the start of an element, an element
without content, a tag at the end of an element, or a declaration. -/
inductive Token where
  | char (c : Char)
  | start (t : Tag)
  | empty (t : Tag)
  | stop (name : List Char)
  | declaration (t : Tag)
deriving DecidableEq, Repr

/-- Where in a tag a reader is. -/
inductive Mode where
  | outside
  | name (s : List Char)
  | stop (s : List Char)
  | between (t : Tag)
  | key (t : Tag) (k : List Char)
  | equals (t : Tag) (k : List Char)
  | value (t : Tag) (k : List Char) (quote : Char) (v : List Char)
  /-- After the slash of an element without content. -/
  | closing (t : Tag)
  /-- After the question mark at the end of a declaration. -/
  | declaring (t : Tag)

/-- Where a reader is, and what it has found. -/
structure Position where
  mode : Mode
  found : List Token

/-- Reads one character. -/
def next : Position → Char → Option Position
  | ⟨.outside, ts⟩, c => some (if c = '<' then ⟨.name [], ts⟩ else ⟨.outside, ts ++ [.char c]⟩)
  | ⟨.name s, ts⟩, c => some (
      if c = ' ' then ⟨.between ⟨s, []⟩, ts⟩
      else if c = '>' then ⟨.outside, ts ++ [.start ⟨s, []⟩]⟩
      else if c = '/' then ⟨if s = [] then .stop [] else .closing ⟨s, []⟩, ts⟩
      else ⟨.name (s ++ [c]), ts⟩)
  | ⟨.stop s, ts⟩, c => some (
      if c = '>' then ⟨.outside, ts ++ [.stop s]⟩ else ⟨.stop (s ++ [c]), ts⟩)
  | ⟨.between t, ts⟩, c => some (
      if c = ' ' then ⟨.between t, ts⟩
      else if c = '>' then ⟨.outside, ts ++ [.start t]⟩
      else if c = '/' then ⟨.closing t, ts⟩
      else if c = '?' then ⟨.declaring t, ts⟩
      else ⟨.key t [c], ts⟩)
  | ⟨.key t k, ts⟩, c => some (if c = '=' then ⟨.equals t k, ts⟩ else ⟨.key t (k ++ [c]), ts⟩)
  | ⟨.equals t k, ts⟩, c => if c = '"' ∨ c = '\'' then some ⟨.value t k c [], ts⟩ else none
  | ⟨.value t k q v, ts⟩, c => some (
      if c = q then ⟨.between ⟨t.name, t.attributes ++ [(k, v)]⟩, ts⟩
      else ⟨.value t k q (v ++ [c]), ts⟩)
  | ⟨.closing t, ts⟩, c => if c = '>' then some ⟨.outside, ts ++ [.empty t]⟩ else none
  | ⟨.declaring t, ts⟩, c => if c = '>' then some ⟨.outside, ts ++ [.declaration t]⟩ else none

/-- Reads characters, one after the other. -/
def scan (p : Position) (s : List Char) : Option Position := s.foldlM next p

/-- What is found in a text that does not end inside a tag. -/
def read (s : List Char) : Option (List Token) :=
  match scan ⟨.outside, []⟩ s with
  | some ⟨.outside, ts⟩ => some ts
  | _ => none

theorem scan_cons (p : Position) (c : Char) (s : List Char) :
    scan p (c :: s) = (next p c).bind (scan · s) := List.foldlM_cons

theorem scan_append (p : Position) (s t : List Char) :
    scan p (s ++ t) = (scan p s).bind (scan · t) := List.foldlM_append

/-- Outside of tags, a text is read as some tokens. -/
def Reads (s : List Char) (tokens : List Token) : Prop :=
  ∀ ts, scan ⟨.outside, ts⟩ s = some ⟨.outside, ts ++ tokens⟩

theorem Reads.nil : Reads [] [] := fun ts => by simp [scan]

theorem Reads.append {s t : List Char} {a b : List Token} (hs : Reads s a) (ht : Reads t b) :
    Reads (s ++ t) (a ++ b) := fun ts => by
  rw [scan_append, hs, Option.bind_some, ht, List.append_assoc]

theorem Reads.flatMap {α : Type} {f : α → List Char} {g : α → List Token} {l : List α}
    (h : ∀ x ∈ l, Reads (f x) (g x)) : Reads (l.flatMap f) (l.flatMap g) := by
  induction l with
  | nil => exact .nil
  | cons x l ih =>
    obtain ⟨hx, hl⟩ := List.forall_mem_cons.mp h
    exact hx.append (ih hl)

theorem Reads.read_eq {s : List Char} {tokens : List Token} (h : Reads s tokens) :
    read s = some tokens := by
  rw [read, h, List.nil_append]

theorem reads_text {s : List Char} (h : '<' ∉ s) : Reads s (s.map .char) := by
  induction s with
  | nil => exact .nil
  | cons c s ih =>
    rw [List.mem_cons, not_or] at h
    intro ts
    rw [scan_cons, next, if_neg (Ne.symm h.1), Option.bind_some, ih h.2]
    simp

/-! ## Tags -/

/-- A name of a tag or of an attribute. -/
def IsWord (s : List Char) : Prop := s ≠ [] ∧ s.all Char.isAlpha = true

instance (s : List Char) : Decidable (IsWord s) := inferInstanceAs (Decidable (_ ∧ _))

theorem IsWord.isAlpha {s : List Char} (h : IsWord s) : ∀ c ∈ s, c.isAlpha = true :=
  List.all_eq_true.mp h.2

theorem ne_of_isAlpha {c d : Char} (hc : c.isAlpha = true) (hd : d.isAlpha = false) : c ≠ d := by
  rintro rfl
  exact Bool.false_ne_true (hd.symm.trans hc)

/-- An attribute as it is written: its key, its quote, and its value. -/
structure Attribute where
  key : List Char
  quote : Char
  value : List Char

namespace Attribute

/-- The attribute behind a blank. -/
def text (a : Attribute) : List Char :=
  ' ' :: (a.key ++ '=' :: a.quote :: (a.value ++ [a.quote]))

/-- An attribute that ends at its own quote. -/
structure IsWritten (a : Attribute) : Prop where
  key_word : IsWord a.key
  quote_eq : a.quote = '"' ∨ a.quote = '\''
  quote_not_mem : a.quote ∉ a.value

/-- The attribute as a reader finds it. -/
def entry (a : Attribute) : List Char × List Char := (a.key, a.value)

end Attribute

theorem scan_value {t : Tag} {k : List Char} {q : Char} {v : List Char} (h : q ∉ v)
    (u : List Char) (ts : List Token) :
    scan ⟨.value t k q u, ts⟩ v = some ⟨.value t k q (u ++ v), ts⟩ := by
  induction v generalizing u with
  | nil => simp [scan]
  | cons c v ih =>
    rw [List.mem_cons, not_or] at h
    rw [scan_cons, next, if_neg (Ne.symm h.1), Option.bind_some, ih h.2]
    simp

theorem scan_key {k : List Char} (hk : IsWord k) (t : Tag) (ts : List Token) :
    scan ⟨.between t, ts⟩ k = some ⟨.key t k, ts⟩ := by
  have hrest : ∀ (w u : List Char), (∀ c ∈ w, c.isAlpha = true) →
      scan ⟨.key t u, ts⟩ w = some ⟨.key t (u ++ w), ts⟩ := by
    intro w
    induction w with
    | nil => simp [scan]
    | cons c w ih =>
      intro u hw
      obtain ⟨hc, hw⟩ := List.forall_mem_cons.mp hw
      rw [scan_cons, next, if_neg (ne_of_isAlpha hc (by decide)), Option.bind_some, ih _ hw]
      simp
  obtain ⟨c, k, rfl⟩ := List.exists_cons_of_ne_nil hk.1
  obtain ⟨hc, hk⟩ := List.forall_mem_cons.mp hk.isAlpha
  rw [scan_cons, next, if_neg (ne_of_isAlpha hc (by decide)),
    if_neg (ne_of_isAlpha hc (by decide)), if_neg (ne_of_isAlpha hc (by decide)),
    if_neg (ne_of_isAlpha hc (by decide)), Option.bind_some, hrest k [c] hk]
  rfl

theorem scan_attribute {a : Attribute} (h : a.IsWritten) (t : Tag) (ts : List Token) :
    scan ⟨.between t, ts⟩ a.text = some ⟨.between ⟨t.name, t.attributes ++ [a.entry]⟩, ts⟩ := by
  have hblank : next ⟨.between t, ts⟩ ' ' = some ⟨.between t, ts⟩ := rfl
  have hequals : next ⟨.key t a.key, ts⟩ '=' = some ⟨.equals t a.key, ts⟩ := rfl
  rw [Attribute.text, scan_cons, hblank, Option.bind_some, scan_append, scan_key h.key_word, Option.bind_some,
    scan_cons, hequals, Option.bind_some, scan_cons, next, if_pos h.quote_eq, Option.bind_some,
    scan_append, scan_value h.quote_not_mem, Option.bind_some, List.nil_append]
  simp [scan, next, Attribute.entry]

theorem scan_attributes {as : List Attribute} (h : ∀ a ∈ as, a.IsWritten) (t : Tag)
    (ts : List Token) :
    scan ⟨.between t, ts⟩ (as.flatMap Attribute.text) =
      some ⟨.between ⟨t.name, t.attributes ++ as.map Attribute.entry⟩, ts⟩ := by
  induction as generalizing t with
  | nil => simp [scan]
  | cons a as ih =>
    obtain ⟨ha, has⟩ := List.forall_mem_cons.mp h
    rw [List.flatMap_cons, scan_append, scan_attribute ha, Option.bind_some, ih has]
    simp

/-- A tag up to its end. -/
def tagText (name : List Char) (as : List Attribute) : List Char :=
  '<' :: name ++ as.flatMap Attribute.text

/-- A tag that is written with a name and some attributes. -/
structure IsTag (name : List Char) (as : List Attribute) : Prop where
  name_word : IsWord name
  ne_nil : as ≠ []
  isWritten : ∀ a ∈ as, a.IsWritten

theorem scan_name {w : List Char} (hw : ∀ c ∈ w, c.isAlpha = true) (s : List Char)
    (ts : List Token) : scan ⟨.name s, ts⟩ w = some ⟨.name (s ++ w), ts⟩ := by
  induction w generalizing s with
  | nil => simp [scan]
  | cons c w ih =>
    obtain ⟨hc, hw⟩ := List.forall_mem_cons.mp hw
    rw [scan_cons, next, if_neg (ne_of_isAlpha hc (by decide)),
      if_neg (ne_of_isAlpha hc (by decide)), if_neg (ne_of_isAlpha hc (by decide)),
      Option.bind_some, ih hw]
    simp

theorem scan_tagText {name : List Char} {as : List Attribute} (h : IsTag name as)
    (ts : List Token) :
    scan ⟨.outside, ts⟩ (tagText name as) =
      some ⟨.between ⟨name, as.map Attribute.entry⟩, ts⟩ := by
  have hstart : next ⟨.outside, ts⟩ '<' = some ⟨.name [], ts⟩ := rfl
  rw [tagText, List.cons_append, scan_cons, hstart, Option.bind_some, scan_append,
    scan_name h.name_word.isAlpha, Option.bind_some, List.nil_append]
  -- the blank before the first attribute ends the name
  obtain ⟨a, as, rfl⟩ := List.exists_cons_of_ne_nil h.ne_nil
  have hname : scan ⟨.name name, ts⟩ ((a :: as).flatMap Attribute.text) =
      scan ⟨.between ⟨name, []⟩, ts⟩ ((a :: as).flatMap Attribute.text) := rfl
  rw [hname, scan_attributes h.isWritten, List.nil_append]

variable {name : List Char} {as : List Attribute}

theorem reads_start (h : IsTag name as) :
    Reads (tagText name as ++ ['>']) [.start ⟨name, as.map Attribute.entry⟩] := fun ts => by
  rw [scan_append, scan_tagText h]
  rfl

theorem reads_empty (h : IsTag name as) :
    Reads (tagText name as ++ ['/', '>']) [.empty ⟨name, as.map Attribute.entry⟩] := fun ts => by
  rw [scan_append, scan_tagText h]
  rfl

theorem reads_stop (h : '>' ∉ name) : Reads ('<' :: '/' :: name ++ ['>']) [.stop name] := by
  have hrest : ∀ (w u : List Char) (ts : List Token), '>' ∉ w →
      scan ⟨.stop u, ts⟩ w = some ⟨.stop (u ++ w), ts⟩ := by
    intro w
    induction w with
    | nil => simp [scan]
    | cons c w ih =>
      intro u ts hw
      rw [List.mem_cons, not_or] at hw
      rw [scan_cons, next, if_neg (Ne.symm hw.1), Option.bind_some, ih _ _ hw.2]
      simp
  intro ts
  have hstop : scan ⟨.outside, ts⟩ ('<' :: '/' :: name ++ ['>']) =
      scan ⟨.stop [], ts⟩ (name ++ ['>']) := rfl
  rw [hstop, scan_append, hrest name [] ts h]
  rfl

/-! ## Texts inside markup -/

/-- The quote that is chosen for a text. -/
def quoteOf (s : String) : Char :=
  if s.toList.contains '"' && !s.toList.contains '\'' then '\'' else '"'

/-- A text as it stands between its quotes. -/
def escaped (s : String) : List Char := s.toList.flatMap (attributeChar (quoteOf s))

theorem toList_attributeText (s : String) :
    (attributeText s).toList = quoteOf s :: (escaped s ++ [quoteOf s]) := by
  simp [attributeText, escaped, quoteOf]

theorem quote_not_mem_attributeChar {q c : Char} (hq : q = '"' ∨ q = '\'')
    (h : q = '"' ∨ c ≠ q) : q ∉ attributeChar q c := by
  unfold attributeChar
  rcases hq with rfl | rfl
  · split_ifs <;> simp_all [eq_comm]
  · split_ifs <;> simp_all [eq_comm]

theorem quoteOf_eq (s : String) : quoteOf s = '"' ∨ quoteOf s = '\'' ∧ '\'' ∉ s.toList := by
  unfold quoteOf
  split
  · rename_i h
    simp only [Bool.and_eq_true, Bool.not_eq_true', List.contains_eq_mem, decide_eq_false_iff_not] at h
    exact .inr ⟨rfl, h.2⟩
  · exact .inl rfl

/-- The quote of a text does not stand in the text as it is written. -/
theorem quoteOf_not_mem_escaped (s : String) : quoteOf s ∉ escaped s := by
  intro h
  obtain ⟨c, hc, h⟩ := List.mem_flatMap.mp h
  rcases quoteOf_eq s with hq | ⟨hq, hnot⟩
  · exact quote_not_mem_attributeChar (.inl hq) (.inl hq) h
  · refine quote_not_mem_attributeChar (.inr hq) (.inr ?_) h
    rintro rfl
    exact hnot (hq ▸ hc)

theorem lt_not_mem_body (s : String) : '<' ∉ (body s).toList := by
  intro h
  rw [body, String.toList_ofList] at h
  obtain ⟨c, -, h⟩ := List.mem_flatMap.mp h
  revert h
  unfold bodyChar
  split_ifs <;> simp_all [eq_comm]

namespace Attribute

/-- An attribute between double quotes. -/
def plain (key : String) (value : String) : Attribute := ⟨key.toList, '"', value.toList⟩

/-- An attribute of any text. -/
def quoted (key s : String) : Attribute := ⟨key.toList, quoteOf s, escaped s⟩

theorem isWritten_plain {key value : String} (hkey : IsWord key.toList)
    (hvalue : '"' ∉ value.toList) : (plain key value).IsWritten :=
  ⟨hkey, .inl rfl, hvalue⟩

theorem isWritten_quoted {key : String} (hkey : IsWord key.toList) (s : String) :
    (quoted key s).IsWritten :=
  ⟨hkey, (quoteOf_eq s).imp id And.left, quoteOf_not_mem_escaped s⟩

theorem text_plain (key value : String) :
    (plain key value).text = ' ' :: (key.toList ++ '=' :: '"' :: (value.toList ++ ['"'])) := rfl

theorem text_quoted (key s : String) :
    (quoted key s).text = ' ' :: (key.toList ++ '=' :: (attributeText s).toList) := by
  rw [toList_attributeText]
  rfl

end Attribute

end Layering.Report.Markup
