import Layering.Proofs.Report.Markup
import Layering.Text.Basic

/-!
# Elements of markup

The tags and characters that a reader finds in a text are put together to elements, and references are
replaced by the characters that they stand for. Both go step by step, so that what is made of a
text is put together from what is made of its parts: `Decodes.append` for references, `Builds.append`
for elements. A tag at the start of an element, what makes its content, and the tag at its end make the
element (`builds_element`). Whatever a text is, what `attributeText` and `body` write for it stands for
that text (`decodes_escaped`, `decodes_body`).
-/

namespace Layering.Report.Markup

/-! ## References -/

/-- The character that a reference stands for: one of five names, or a number in decimal digits. -/
def referenced? : List Char → Option Char
  | ['a', 'm', 'p'] => some '&'
  | ['l', 't'] => some '<'
  | ['g', 't'] => some '>'
  | ['q', 'u', 'o', 't'] => some '"'
  | ['a', 'p', 'o', 's'] => some '\''
  | '#' :: digits =>
    (Text.number? 10 digits).bind fun n => if n.isValidChar then some (Char.ofNat n) else none
  | _ => none

/-- Reads one character: gives what is found of a reference that has begun, and what can be read by
then. -/
def decodeChar : Option (List Char) → Char → Option (Option (List Char) × List Char)
  | none, c => some (if c = '&' then (some [], []) else (none, [c]))
  | some ref, c =>
    if c = ';' then (referenced? ref).map fun d => (none, [d]) else some (some (ref ++ [c]), [])

/-- Reads characters, one after the other. -/
def decodeFrom (ref : Option (List Char)) : List Char → Option (Option (List Char) × List Char)
  | [] => some (ref, [])
  | c :: s =>
    (decodeChar ref c).bind fun found =>
      (decodeFrom found.1 s).map fun rest => (rest.1, found.2 ++ rest.2)

/-- What a text stands for. -/
def decode (s : List Char) : Option (List Char) :=
  match decodeFrom none s with
  | some (none, t) => some t
  | _ => none

/-- A text stands for another one. -/
def Decodes (s t : List Char) : Prop := decodeFrom none s = some (none, t)

theorem decodeFrom_append {ref ref' : Option (List Char)} {s t : List Char}
    (h : decodeFrom ref s = some (ref', t)) (s' : List Char) :
    decodeFrom ref (s ++ s') = (decodeFrom ref' s').map fun rest => (rest.1, t ++ rest.2) := by
  induction s generalizing ref t with
  | nil =>
    cases h
    simp
  | cons c s ih =>
    rw [decodeFrom, Option.bind_eq_some_iff] at h
    obtain ⟨found, hfound, h⟩ := h
    obtain ⟨rest, hrest, h⟩ := Option.map_eq_some_iff.mp h
    cases h
    rw [List.cons_append, decodeFrom, hfound, Option.bind_some, ih hrest, Option.map_map]
    congr 1
    funext more
    simp

namespace Decodes

theorem nil : Decodes [] [] := rfl

theorem append {s s' t t' : List Char} (h : Decodes s t) (h' : Decodes s' t') :
    Decodes (s ++ s') (t ++ t') := by
  rw [Decodes, decodeFrom_append h, h', Option.map_some]

theorem flatMap {f : Char → List Char} (h : ∀ c, Decodes (f c) [c]) (s : List Char) :
    Decodes (s.flatMap f) s := by
  induction s with
  | nil => exact nil
  | cons c s ih => exact (h c).append ih

theorem decode_eq {s t : List Char} (h : Decodes s t) : decode s = some t := by
  rw [decode, h]

end Decodes

theorem decodes_singleton {c : Char} (h : c ≠ '&') : Decodes [c] [c] := by
  rw [Decodes, decodeFrom, decodeChar, if_neg h]
  rfl

theorem decodes_plain {s : List Char} (h : '&' ∉ s) : Decodes s s := by
  induction s with
  | nil => exact .nil
  | cons c s ih =>
    rw [List.mem_cons, not_or] at h
    exact (decodes_singleton (Ne.symm h.1)).append (ih h.2)

theorem decodes_attributeChar (q c : Char) : Decodes (attributeChar q c) [c] := by
  unfold attributeChar
  split_ifs with hamp hlt hgt hline hreturn htab hquote
  · subst hamp; rfl
  · subst hlt; rfl
  · subst hgt; rfl
  · subst hline; rfl
  · subst hreturn; rfl
  · subst htab; rfl
  · rw [hquote.1]; rfl
  · exact decodes_singleton hamp

theorem decodes_bodyChar (c : Char) : Decodes (bodyChar c) [c] := by
  unfold bodyChar
  split_ifs with hamp hlt hgt hquote hapostrophe
  · subst hamp; rfl
  · subst hlt; rfl
  · subst hgt; rfl
  · subst hquote; rfl
  · subst hapostrophe; rfl
  · exact decodes_singleton hamp

/-- What stands between the quotes of an attribute stands for its text. -/
theorem decodes_escaped (s : String) : Decodes (escaped s) s.toList :=
  .flatMap (decodes_attributeChar (quoteOf s)) s.toList

/-- What stands between two tags stands for its text. -/
theorem decodes_body (s : String) : Decodes (body s).toList s.toList := by
  rw [body, String.toList_ofList]
  exact .flatMap decodes_bodyChar s.toList

/-! ## Elements -/

/-- A character, or an element with its attributes and its content, all references replaced. -/
inductive Node where
  | char (c : Char)
  | element (name : String) (attributes : List (String × String)) (content : List Node)

/-- The characters of a text. -/
def Node.chars (s : String) : List Node := s.toList.map .char

/-- An element whose end has not been read yet, with its content up to there. -/
structure Unclosed where
  name : List Char
  attributes : List (String × String)
  content : List Node

namespace Unclosed

/-- Adds nodes to the content. -/
def add (e : Unclosed) (ns : List Node) : Unclosed := { e with content := e.content ++ ns }

/-- The element, if it ends here. -/
def node (e : Unclosed) : Node := .element (String.ofList e.name) e.attributes e.content

theorem add_nil (e : Unclosed) : e.add [] = e := by
  rw [add, List.append_nil]

theorem add_add (e : Unclosed) (a b : List Node) : (e.add a).add b = e.add (a ++ b) := by
  simp only [add, List.append_assoc]

end Unclosed

/-- Where among elements a reader is: the innermost one, those around it, and what is found of a
reference that has begun. -/
structure Place where
  inner : Unclosed
  outer : List Unclosed
  reference : Option (List Char)

/-- The attributes of a tag, with what their values stand for. -/
def Tag.decoded? (t : Tag) : Option (List (String × String)) :=
  t.attributes.mapM fun a => (decode a.2).map fun v => (String.ofList a.1, String.ofList v)

/-- Takes one token. No tag stands inside a reference, and an element ends with its own name. -/
def take : Place → Token → Option Place
  | ⟨e, es, ref⟩, .char c =>
    (decodeChar ref c).map fun found => ⟨e.add (found.2.map .char), es, found.1⟩
  | ⟨e, es, none⟩, .start t => t.decoded?.map fun as => ⟨⟨t.name, as, []⟩, e :: es, none⟩
  | ⟨e, es, none⟩, .empty t =>
    t.decoded?.map fun as => ⟨e.add [Unclosed.node ⟨t.name, as, []⟩], es, none⟩
  | ⟨e, e' :: es, none⟩, .stop name =>
    if e.name = name then some ⟨e'.add [e.node], es, none⟩ else none
  | _, _ => none

/-- Takes tokens, one after the other. -/
def takeAll (p : Place) (ts : List Token) : Option Place := ts.foldlM take p

/-- The tokens behind a declaration, if there is one. -/
def afterDeclaration : List Token → List Token
  | .declaration _ :: ts => ts
  | ts => ts

/-- The nodes of a text in which all elements and references end. -/
def parse (s : List Char) : Option (List Node) :=
  (read s).bind fun ts =>
    match takeAll ⟨⟨[], [], []⟩, [], none⟩ (afterDeclaration ts) with
    | some ⟨e, [], none⟩ => some e.content
    | _ => none

/-- Inside of any element, some tokens make some nodes. -/
def Builds (ts : List Token) (ns : List Node) : Prop :=
  ∀ e es, takeAll ⟨e, es, none⟩ ts = some ⟨e.add ns, es, none⟩

namespace Builds

theorem nil : Builds [] [] := fun e es => by rw [e.add_nil]; rfl

theorem append {ts ts' : List Token} {ns ns' : List Node} (h : Builds ts ns) (h' : Builds ts' ns') :
    Builds (ts ++ ts') (ns ++ ns') := by
  intro e es
  rw [takeAll, List.foldlM_append, ← takeAll, h, ← Unclosed.add_add]
  exact h' _ _

theorem flatMap {α : Type} {f : α → List Token} {g : α → List Node} (h : ∀ x, Builds (f x) (g x))
    (l : List α) : Builds (l.flatMap f) (l.flatMap g) := by
  induction l with
  | nil => exact nil
  | cons x l ih => exact (h x).append ih

end Builds

theorem takeAll_chars (e : Unclosed) (es : List Unclosed) (ref : Option (List Char)) (s : List Char) :
    takeAll ⟨e, es, ref⟩ (s.map .char) =
      (decodeFrom ref s).map fun found => ⟨e.add (found.2.map .char), es, found.1⟩ := by
  induction s generalizing e ref with
  | nil => simp [takeAll, decodeFrom, Unclosed.add_nil]
  | cons c s ih =>
    rw [List.map_cons, takeAll, List.foldlM_cons, take, decodeFrom]
    cases hc : decodeChar ref c with
    | none => rfl
    | some found =>
      have hrest := ih (e.add (found.2.map .char)) found.1
      simp only [takeAll] at hrest
      simp [hrest, Unclosed.add_add, Function.comp_def]

/-- Characters make the characters that they stand for. -/
theorem Decodes.builds {s t : List Char} (h : Decodes s t) :
    Builds (s.map .char) (t.map .char) := by
  intro e es
  rw [takeAll_chars, h, Option.map_some]

theorem builds_empty {t : Tag} {as : List (String × String)} (h : t.decoded? = some as) :
    Builds [.empty t] [.element (String.ofList t.name) as []] := by
  intro e es
  simp [takeAll, take, h, Unclosed.node]

/-- A tag, what makes its content, and the tag at its end make an element. -/
theorem builds_element {t : Tag} {as : List (String × String)} {ts : List Token} {ns : List Node}
    (ht : t.decoded? = some as) (h : Builds ts ns) :
    Builds (.start t :: (ts ++ [.stop t.name])) [.element (String.ofList t.name) as ns] := by
  intro e es
  have hstart : take ⟨e, es, none⟩ (.start t) = some ⟨⟨t.name, as, []⟩, e :: es, none⟩ := by
    rw [take, ht, Option.map_some]
  have hcontent : takeAll ⟨⟨t.name, as, []⟩, e :: es, none⟩ ts =
      some ⟨⟨t.name, as, ns⟩, e :: es, none⟩ := h ⟨t.name, as, []⟩ (e :: es)
  have hstop : take ⟨⟨t.name, as, ns⟩, e :: es, none⟩ (.stop t.name) =
      some ⟨e.add [.element (String.ofList t.name) as ns], es, none⟩ := if_pos rfl
  rw [takeAll, List.foldlM_cons, hstart, Option.bind_eq_bind, Option.bind_some, List.foldlM_append,
    ← takeAll, hcontent, Option.bind_eq_bind, Option.bind_some, List.foldlM_cons, hstop]
  rfl

/-- A text that is read as a declaration and tokens that make nodes is parsed as those nodes. -/
theorem parse_eq {s : List Char} {t : Tag} {ts : List Token} {ns : List Node}
    (hread : read s = some (.declaration t :: ts)) (h : Builds ts ns) : parse s = some ns := by
  rw [parse, hread, Option.bind_some, afterDeclaration, h]
  rfl

/-! ## Attributes -/

/-- A written attribute stands for a key and a value. -/
def Attribute.Means (a : Attribute) (entry : String × String) : Prop :=
  String.ofList a.key = entry.1 ∧ Decodes a.value entry.2.toList

namespace Attribute

theorem means_plain (key : String) {value : String} (h : '&' ∉ value.toList) :
    (plain key value).Means (key, value) :=
  ⟨String.ofList_toList, decodes_plain h⟩

theorem means_quoted (key s : String) : (quoted key s).Means (key, s) :=
  ⟨String.ofList_toList, decodes_escaped s⟩

end Attribute

theorem decoded?_eq {name : List Char} {as : List Attribute} {entries : List (String × String)}
    (h : List.Forall₂ Attribute.Means as entries) :
    Tag.decoded? ⟨name, as.map Attribute.entry⟩ = some entries := by
  induction h with
  | nil => rfl
  | @cons a entry as entries ha _ ih =>
    simp only [Tag.decoded?] at ih ⊢
    rw [List.map_cons, List.mapM_cons, ih]
    simp [Attribute.entry, ha.2.decode_eq, ha.1]

end Layering.Report.Markup
