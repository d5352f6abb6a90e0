import Layering.Diagram.Link
import Layering.Proofs.Json.Reading
import Layering.Proofs.Text.Base64

/-!
# What links carry

A link carries the JSON text of its diagram in base 64. Reading a link goes back the same way
(`carried?`): the text behind the start of the link is filled up and decoded, the bytes are taken as
UTF-8, and the text is read as JSON. The main result, `link_carries_code`, says that this gives the
diagram, and when there is a link. The diagram must not have the two halves of a surrogate pair side by
side: the link is the one of the character that they make up (`link_shared_smile`).
-/

namespace Layering.Diagram

open Text

/-- The value that a link carries. -/
def carried? (url : String) : Option Value := do
  let bytes ← Base64.decodeLoose? Base64.urlSafe
    (Base64.filled (url.toList.drop linkStart.length))
  let text ← String.fromUTF8? bytes.toByteArray
  Json.read? text.toList

/-- The number of characters of a link: its start, and four for every three of the payload. -/
def linkLength (code : String) : ℕ := linkStart.length + (4 * (linkPayload code).length + 2) / 3

/-! ## The payload -/

theorem linkPayload_eq (code : String) : linkPayload code =
    '\x7b' :: (Json.printString Json.line "code".toList ++ ':' :: ' ' ::
      (Json.printString Json.line code.toList ++ ['\x7d'])) := by
  have hprint : linkPayload code = '\x7b' :: (Json.printString Json.line "code".toList ++ [':', ' '] ++
      Json.printString Json.line code.toList) ++ ['\x7d'] := rfl
  rw [hprint]
  simp only [List.cons_append, List.append_assoc, List.nil_append]

theorem readMembers?_code {code : String} (h : HasNoSplitPair code.toList) (fuel : ℕ) :
    Json.readMembers? (fuel + 2) [] (Json.printString Json.line "code".toList ++ ':' :: ' ' ::
      (Json.printString Json.line code.toList ++ ['\x7d'])) =
    some (.record [("code", .str code)], []) := by
  have hkey : Json.readString? ("code".toList.flatMap (Json.escapeChar Json.line) ++ '"' :: ':' :: ' ' ::
      (Json.printString Json.line code.toList ++ ['\x7d'])) = some ("code".toList, _) :=
    Json.readString?_flatMap_escapeChar (by decide +kernel) _
  have hvalue : Json.readValue? (fuel + 1)
      (' ' :: (Json.printString Json.line code.toList ++ ['\x7d'])) = some (.str code, ['\x7d']) := by
    refine (Json.readValue?_printString h fuel ['\x7d']).trans ?_
    rw [String.ofList_toList]
  exact Json.readMembers?_last hkey hvalue

/-- The payload is read as the diagram. -/
theorem read?_linkPayload {code : String} (h : HasNoSplitPair code.toList) :
    Json.read? (linkPayload code) = some (.record [("code", .str code)]) := by
  have hvalue : ∀ fuel, Json.readValue? (fuel + 3) (linkPayload code) =
      some (.record [("code", .str code)], []) := by
    intro fuel
    rw [linkPayload_eq]
    exact readMembers?_code h fuel
  have hfuel : 2 * (linkPayload code).length + 2 = 2 * (linkPayload code).length - 1 + 3 := by
    rw [linkPayload_eq, List.length_cons]
    omega
  rw [Json.read?, hfuel, hvalue]
  rfl

theorem lt_of_mem_printString {c : Char} {s : List Char} (h : c ∈ Json.printString Json.line s) :
    c.toNat < 0x7f := by
  rcases List.mem_cons.mp h with rfl | h
  · decide
  · rcases List.mem_append.mp h with h | h
    · obtain ⟨x, -, hx⟩ := List.mem_flatMap.mp h
      exact (Json.written_escapeChar Json.line x).lt_of_mem rfl c hx
    · rw [List.mem_singleton.mp h]
      decide

theorem lt_of_mem_linkPayload (code : String) : ∀ c ∈ linkPayload code, c.toNat < 0x7f := by
  rw [linkPayload_eq]
  refine List.forall_mem_cons.mpr ⟨by decide, List.forall_mem_append.mpr ⟨?_, ?_⟩⟩
  · exact fun c => lt_of_mem_printString
  · refine List.forall_mem_cons.mpr ⟨by decide, List.forall_mem_cons.mpr ⟨by decide, ?_⟩⟩
    refine List.forall_mem_append.mpr ⟨fun c => lt_of_mem_printString, ?_⟩
    exact List.forall_mem_singleton.mpr (by decide)

/-! ## The link -/

theorem fromUTF8?_flatMap (s : List Char) :
    String.fromUTF8? (s.flatMap String.utf8EncodeChar).toByteArray = some (String.ofList s) :=
  dif_pos ⟨s, rfl⟩

/-- A character of ASCII is one byte. -/
theorem length_flatMap_utf8EncodeChar {s : List Char} (h : ∀ c ∈ s, c.toNat < 0x7f) :
    (s.flatMap String.utf8EncodeChar).length = s.length := by
  induction s with
  | nil => rfl
  | cons c s ih =>
    obtain ⟨hc, hs⟩ := List.forall_mem_cons.mp h
    have hsize : c.utf8Size = 1 := Char.utf8Size_eq_one_iff.mpr (Nat.le_of_lt hc)
    rw [List.flatMap_cons, List.length_append, String.length_utf8EncodeChar, hsize, ih hs,
      List.length_cons, Nat.add_comm]

theorem length_linkText (code : String) : (linkText code).length = linkLength code := by
  rw [linkText, String.length_append, String.length_ofList, Base64.length_encode,
    length_flatMap_utf8EncodeChar (lt_of_mem_linkPayload code), linkLength]

theorem isAlphanum_digit : ∀ n < 64, (Base64.digit Base64.urlSafe n).isAlphanum = true ∨
    Base64.digit Base64.urlSafe n = '-' ∨ Base64.digit Base64.urlSafe n = '_' := by decide

/-- Reading the link to a diagram gives the diagram. -/
theorem carried?_linkText {code : String} (h : HasNoSplitPair code.toList) :
    carried? (linkText code) = some (.record [("code", .str code)]) := by
  have hrest : (linkText code).toList.drop linkStart.length = Base64.encode Base64.urlSafe
      ((linkPayload code).flatMap String.utf8EncodeChar) := by
    rw [linkText, String.toList_append, String.toList_ofList, ← String.length_toList,
      List.drop_left]
  rw [carried?, hrest, Base64.decodeLoose?_filled_encode Base64.isReadable_urlSafe, Option.bind_eq_bind,
    Option.bind_some, fromUTF8?_flatMap, Option.bind_eq_bind, Option.bind_some, String.toList_ofList,
    read?_linkPayload h]

theorem link?_eq (code : String) : link? code =
    if maxLinkedCode < code.length ∨ maxLinkLength < linkLength code then none
    else some (linkText code) := by
  rw [← length_linkText, link?]
  by_cases hcode : maxLinkedCode < code.length
  · rw [if_pos hcode, if_pos (.inl hcode)]
  · rw [if_neg hcode]
    by_cases hlength : maxLinkLength < (linkText code).length
    · exact (if_pos hlength).trans (if_pos (.inr hlength)).symm
    · exact (if_neg hlength).trans (if_neg (not_or.mpr ⟨hcode, hlength⟩)).symm

theorem link?_eq_none_iff (code : String) :
    link? code = none ↔ maxLinkedCode < code.length ∨ maxLinkLength < linkLength code := by
  constructor
  · intro h
    by_contra hsmall
    rw [link?_eq, if_neg hsmall] at h
    cases h
  · intro h
    rw [link?_eq, if_pos h]

theorem link?_eq_some {code url : String} (h : link? code = some url) :
    url = linkText code ∧ url.length ≤ maxLinkLength := by
  rw [link?_eq, Option.ite_none_left_eq_some, Option.some.injEq, not_or] at h
  obtain ⟨⟨-, hlength⟩, rfl⟩ := h
  rw [length_linkText]
  exact ⟨rfl, Nat.le_of_not_lt hlength⟩

/-- **A link carries its diagram.** A link is not longer than a link may be, it consists of the start of
all links and of letters, digits, dashes and underscores, and reading it gives the diagram, if no pair
is split there. There is none only for a diagram that is too large and for one whose link would be too
long. So diagrams without a split pair that differ have no link in common. -/
theorem link_carries_code (code : String) :
    (∀ url, link? code = some url →
      url.length ≤ maxLinkLength ∧
      (∃ digits : List Char, url = linkStart ++ String.ofList digits ∧
        ∀ c ∈ digits, c.isAlphanum = true ∨ c = '-' ∨ c = '_') ∧
      (HasNoSplitPair code.toList → carried? url = some (.record [("code", .str code)]))) ∧
    (link? code = none ↔ maxLinkedCode < code.length ∨ maxLinkLength < linkLength code) ∧
    (HasNoSplitPair code.toList → ∀ other url, HasNoSplitPair other.toList →
      link? code = some url → link? other = some url → other = code) := by
  refine ⟨fun url h => ?_, link?_eq_none_iff code, fun hcode other url hother h h' => ?_⟩
  · obtain ⟨rfl, hlength⟩ := link?_eq_some h
    refine ⟨hlength, ⟨_, rfl, fun c hc => ?_⟩, carried?_linkText⟩
    obtain ⟨n, hn, rfl⟩ := Base64.mem_encode hc
    exact isAlphanum_digit n hn
  · obtain ⟨rfl, -⟩ := link?_eq_some h
    have hcarried := carried?_linkText hother
    rw [← (link?_eq_some h').1, carried?_linkText hcode] at hcarried
    simpa [Value.record, Value.str] using hcarried.symm

/-- A diagram of one character outside the first plane. -/
def smile : String := String.singleton (Char.ofNat 0x1f600)

/-- The two halves that make up this character, side by side. -/
def splitSmile : String := String.ofList [ofCodePoint 0xd83d, ofCodePoint 0xde00]

/-- The halves of a pair are written as the pair, so their link carries the character. -/
theorem link_shared_smile : splitSmile ≠ smile ∧ ∃ url, link? splitSmile = some url ∧
    link? smile = some url ∧ carried? url = some (.record [("code", .str smile)]) := by
  have hpayload : linkPayload splitSmile = linkPayload smile := by decide +kernel
  have hsmile : link? smile = some (linkText smile) := by
    rw [link?_eq, if_neg (by decide +kernel)]
  have hsplit : link? splitSmile = some (linkText smile) := by
    have htext : linkText splitSmile = linkText smile := by rw [linkText, linkText, hpayload]
    rw [link?_eq, if_neg (by decide +kernel), htext]
  exact ⟨by decide +kernel, _, hsplit, hsmile, carried?_linkText (by decide +kernel)⟩

end Layering.Diagram
