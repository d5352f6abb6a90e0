import Layering.Source.Imports
import Mathlib.Data.List.Basic
import Mathlib.Data.List.Perm.Basic
import Mathlib.Data.List.TakeWhile
import Mathlib.Tactic.Common

/-!
# Imports in the order of the text

A form reads an import statement at the start of a text; what it reads is the text in front of a path,
the path, and the rest of the statement (`Hit.Reads`). A search goes through a text with one form, and
finds the first statement, then the first behind it, and so on (`Scans`, `occurrences_eq`). So within one
form no two statements overlap.

The texts of JavaScript and TypeScript are searched with three forms. Each reads a path in quotes, and
what stands before the quote tells the forms apart: blanks left aside, it is the `t` of `import` or the
`m` of `from` for a static import, and `require(` or `import(` for the two others. So no two of them
report the same place (`pairwise_forms`), and as there is no quote in a path, the paths that they report
do not overlap. Sorted by their places, the statements are the imports of a text (`imports_in_order`).
-/

namespace Layering.Source

open Text

/-! ## Reading along a text -/

namespace Cut

/-- One cut is reached from another by passing a text. -/
structure Passes (c : Cut) (w : List Char) (c' : Cut) : Prop where
  passed_eq : c'.passed = c.passed + w.length
  rest_eq : c.rest = w ++ c'.rest

theorem Passes.refl (c : Cut) : c.Passes [] c := ⟨rfl, rfl⟩

theorem Passes.trans {c c' c'' : Cut} {v w : List Char} (h : c.Passes v c')
    (h' : c'.Passes w c'') : c.Passes (v ++ w) c'' where
  passed_eq := by rw [h'.passed_eq, h.passed_eq, List.length_append, Nat.add_assoc]
  rest_eq := by rw [h.rest_eq, h'.rest_eq, List.append_assoc]

theorem passes_drop {c : Cut} {w : List Char} (h : w <+: c.rest) :
    c.Passes w ⟨c.passed + w.length, c.rest.drop w.length⟩ :=
  ⟨rfl, (List.prefix_iff_eq_append.mp h).symm⟩

theorem passes_literal {word : String} {c c' : Cut} (h : c.literal word = some c') :
    c.Passes word.toList c' := by
  unfold literal at h
  dsimp only at h
  split at h
  · rename_i hword
    cases h
    exact passes_drop (List.isPrefixOf_iff_prefix.mp hword)
  · cases h

theorem passes_many (p : Char → Bool) (c : Cut) : c.Passes (c.rest.takeWhile p) (c.many p) :=
  passes_drop (List.takeWhile_prefix p)

theorem passes_oneOrMore {p : Char → Bool} {c c' : Cut} (h : c.oneOrMore p = some c') :
    c.Passes (c.rest.takeWhile p) c' := by
  unfold oneOrMore at h
  split at h
  · cases h
    exact passes_many p c
  · cases h

end Cut

/-- The characters of a text that are not blank. -/
def shown (s : List Char) : List Char := s.filter fun c => !isBlank c

theorem shown_append (s t : List Char) : shown (s ++ t) = shown s ++ shown t := List.filter_append ..

theorem shown_takeWhile_isBlank (s : List Char) : shown (s.takeWhile isBlank) = [] := by
  rw [shown, List.filter_eq_nil_iff]
  intro c hc
  simp [List.mem_takeWhile_imp hc]

/-! ## Statements at the start of a text -/

namespace Hit

/-- The number of characters of a statement. -/
def size (h : Hit) : ℕ := h.lead + h.path.length + h.tail

/-- A statement stands at the start of a text, with `front` before its path. -/
structure Reads (h : Hit) (front s : List Char) : Prop where
  path_ne_nil : h.path ≠ []
  length_front : front.length = h.lead
  eq_append : ∃ behind rest, s = front ++ h.path ++ behind ++ rest ∧ behind.length = h.tail

theorem Reads.size_pos {h : Hit} {front s : List Char} (hr : h.Reads front s) : 0 < h.size := by
  have hpath := List.length_pos_iff.mpr hr.path_ne_nil
  unfold size
  omega

theorem Reads.of_passes {h : Hit} {front behind s : List Char} {c c₁ c₂ : Cut} (hne : h.path ≠ [])
    (hlead : h.lead = c.passed) (htail : h.tail = c₂.passed - c.passed - h.path.length)
    (hfront : (Cut.mk 0 s).Passes front c) (hpath : c.Passes h.path c₁)
    (hbehind : c₁.Passes behind c₂) : h.Reads front s where
  path_ne_nil := hne
  length_front := by
    rw [hlead, hfront.passed_eq, Nat.zero_add]
  eq_append := by
    refine ⟨behind, c₂.rest, ((hfront.trans hpath).trans hbehind).rest_eq, ?_⟩
    have hend := (hpath.trans hbehind).passed_eq
    rw [List.length_append] at hend
    omega

end Hit

/-- A path between quotes, and the cuts around it. -/
theorem quotedPath_eq_some {c c' : Cut} {lead : ℕ} {path : List Char}
    (h : quotedPath c = some (lead, path, c')) :
    path ≠ [] ∧ (∀ ch ∈ path, isQuote ch = false) ∧
      ∃ q q' c₁ c₂, isQuote q = true ∧ lead = c₁.passed ∧ c.Passes [q] c₁ ∧ c₁.Passes path c₂ ∧
        c₂.Passes [q'] c' := by
  unfold quotedPath at h
  split at h
  · cases h
  rename_i q r hrest
  split at h
  swap
  · cases h
  rename_i hq
  dsimp only at h
  split at h
  · cases h
  rename_i q' after hdrop
  split at h
  · cases h
  rename_i hpath
  obtain ⟨rfl, rfl, rfl⟩ : c.passed + 1 = lead ∧ _ = path ∧ _ = c' := by simpa using h
  refine ⟨by simpa using hpath, fun ch hch => by simpa using List.mem_takeWhile_imp hch, q, q',
    ⟨c.passed + 1, r⟩, _, hq, rfl, ⟨rfl, hrest⟩, Cut.passes_drop (List.takeWhile_prefix _), ?_, hdrop⟩
  simp only [List.length_singleton]
  omega

/-- What is read in quotes behind a text `w` is a statement with `w` and the quote in front. -/
theorem reads_quotedHit {after : Cut → Option Cut}
    (hafter : ∀ {c c'}, after c = some c' → ∃ w, c.Passes w c') {s w : List Char} {c : Cut} {h : Hit}
    (hc : (Cut.mk 0 s).Passes w c) (hh : quotedHit after c = some h) :
    ∃ q, isQuote q = true ∧ h.Reads (w ++ [q]) s ∧ ∀ ch ∈ h.path, isQuote ch = false := by
  simp only [quotedHit, Option.bind_eq_bind, Option.bind_eq_some_iff] at hh
  obtain ⟨⟨lead, path, c₁⟩, hquoted, c₂, hlast, hhit⟩ := hh
  obtain rfl := Option.some.inj hhit
  obtain ⟨hne, hquotes, q, q', _, _, hq, rfl, hopen, hpath, hclose⟩ := quotedPath_eq_some hquoted
  obtain ⟨v, hv⟩ := hafter hlast
  exact ⟨q, hq, .of_passes hne rfl rfl (hc.trans hopen) hpath (hclose.trans hv), hquotes⟩

/-- What a form reads are statements. -/
def Form.IsSound (form : Form) : Prop :=
  ∀ start s h, form start s = some h → ∃ front, h.Reads front s

/-- What a form reads are statements with the path in quotes. Before the quote, blanks apart, stands
one of the given texts. -/
def Form.IsQuoting (ends : List (List Char)) (form : Form) : Prop :=
  ∀ start s h, form start s = some h →
    ∃ front q, isQuote q = true ∧ h.Reads (front ++ [q]) s ∧ (∀ ch ∈ h.path, isQuote ch = false) ∧
      ∃ e ∈ ends, e <:+ shown front

theorem Form.IsQuoting.isSound {ends : List (List Char)} {form : Form} (h : form.IsQuoting ends) :
    form.IsSound := by
  intro start s hit hhit
  obtain ⟨front, q, -, hreads, -⟩ := h start s hit hhit
  exact ⟨_, hreads⟩

/-! ## The forms -/

/-- What is passed before a path that a clause precedes ends with `from`. -/
theorem passes_importClause {c c' : Cut} (h : importClause c = some c') :
    ∃ w, c.Passes w c' ∧ ['m'] <:+ shown w := by
  have hfrom : ∀ {v : List Char} {c₁ : Cut}, c.Passes v c₁ →
      ((c₁.oneOrMore isBlank).bind fun c => (c.literal "from").bind fun c => c.oneOrMore isBlank) =
        some c' → ∃ w, c.Passes w c' ∧ ['m'] <:+ shown w := by
    intro v c₁ hv h
    obtain ⟨c₂, hblank, h⟩ := Option.bind_eq_some_iff.mp h
    obtain ⟨c₃, hfrom, hlast⟩ := Option.bind_eq_some_iff.mp h
    refine ⟨_, (hv.trans (Cut.passes_oneOrMore hblank)).trans
      ((Cut.passes_literal hfrom).trans (Cut.passes_oneOrMore hlast)), ?_⟩
    rw [shown_append, shown_append "from".toList, shown_takeWhile_isBlank, List.append_nil]
    exact List.IsSuffix.trans (by decide) (List.suffix_append _ _)
  unfold importClause at h
  simp only [Option.bind_eq_bind] at h
  split at h
  · obtain ⟨c₁, hnames, h⟩ := Option.bind_eq_some_iff.mp h
    obtain ⟨c₂, hnames, hclose⟩ := Option.bind_eq_some_iff.mp hnames
    obtain ⟨c₃, hopen, rfl⟩ := Option.map_eq_some_iff.mp hnames
    exact hfrom (((Cut.passes_literal hopen).trans (Cut.passes_many _ _)).trans
      (Cut.passes_literal hclose)) h
  · obtain ⟨c₁, hstar, h⟩ := Option.bind_eq_some_iff.mp h
    obtain ⟨c₂, hblank, h⟩ := Option.bind_eq_some_iff.mp h
    obtain ⟨c₃, has, h⟩ := Option.bind_eq_some_iff.mp h
    obtain ⟨c₄, hblank', h⟩ := Option.bind_eq_some_iff.mp h
    obtain ⟨c₅, hname, h⟩ := Option.bind_eq_some_iff.mp h
    exact hfrom ((((Cut.passes_literal hstar).trans (Cut.passes_oneOrMore hblank)).trans
      ((Cut.passes_literal has).trans (Cut.passes_oneOrMore hblank'))).trans
        (Cut.passes_oneOrMore hname)) h
  · obtain ⟨c₁, hname, h⟩ := Option.bind_eq_some_iff.mp h
    exact hfrom (Cut.passes_oneOrMore hname) h

theorem exists_passes_some {c c' : Cut} (h : some c = some c') : ∃ w, c.Passes w c' := by
  cases h
  exact ⟨[], .refl c⟩

theorem isQuoting_staticImport : Form.IsQuoting [['t'], ['m']] staticImport := by
  intro start s h hh
  simp only [staticImport, Option.bind_eq_bind, Option.bind_eq_some_iff] at hh
  obtain ⟨c₁, hword, c₂, hblank, hh⟩ := hh
  have hstart := (Cut.passes_literal hword).trans (Cut.passes_oneOrMore hblank)
  split at hh
  · obtain ⟨q, hq, hreads, hpath⟩ := reads_quotedHit exists_passes_some hstart hh
    refine ⟨_, q, hq, hreads, hpath, ['t'], by simp, ?_⟩
    rw [shown_append, shown_takeWhile_isBlank, List.append_nil]
    decide
  · obtain ⟨c₃, hclause, hquoted⟩ := Option.bind_eq_some_iff.mp hh
    obtain ⟨w, hw, hm⟩ := passes_importClause hclause
    obtain ⟨q, hq, hreads, hpath⟩ := reads_quotedHit exists_passes_some (hstart.trans hw) hquoted
    refine ⟨_, q, hq, hreads, hpath, ['m'], by simp, ?_⟩
    rw [shown_append]
    exact hm.trans (List.suffix_append _ _)

theorem isQuoting_callForm {word : String} (hword : shown word.toList = word.toList) :
    Form.IsQuoting [word.toList ++ ['(']] (callForm word) := by
  intro start s h hh
  simp only [callForm, Option.bind_eq_bind, Option.bind_eq_some_iff] at hh
  obtain ⟨c₁, hliteral, c₂, hopen, hquoted⟩ := hh
  have hstart := ((Cut.passes_literal hliteral).trans (Cut.passes_many isBlank _)).trans
    ((Cut.passes_literal hopen).trans (Cut.passes_many isBlank _))
  obtain ⟨q, hq, hreads, hpath⟩ := reads_quotedHit
    (fun hclose => ⟨_, (Cut.passes_many isBlank _).trans (Cut.passes_literal hclose)⟩) hstart hquoted
  refine ⟨_, q, hq, hreads, hpath, _, List.mem_singleton_self _, ?_⟩
  rw [shown_append, shown_append, shown_append, shown_takeWhile_isBlank, shown_takeWhile_isBlank,
    hword, List.append_nil, List.append_nil]
  exact List.suffix_rfl

theorem isSound_groupImport : Form.IsSound groupImport := by
  intro start s h hh
  simp only [groupImport, Option.bind_eq_bind, Option.bind_eq_some_iff] at hh
  obtain ⟨c₁, hword, c₂, hblank, hquoted⟩ := hh
  have hstart := (Cut.passes_literal hword).trans (Cut.passes_oneOrMore hblank)
  split at hquoted
  · rename_i c₃ hopen
    obtain ⟨q, -, hreads, -⟩ := reads_quotedHit exists_passes_some
      (hstart.trans ((Cut.passes_literal hopen).trans (Cut.passes_many _ _))) hquoted
    exact ⟨_, hreads⟩
  · obtain ⟨q, -, hreads, -⟩ := reads_quotedHit exists_passes_some hstart hquoted
    exact ⟨_, hreads⟩

theorem passes_dottedName {c c' : Cut} {name : List Char} (h : dottedName c = some (name, c')) :
    name ≠ [] ∧ c.Passes name c' := by
  unfold dottedName at h
  dsimp only at h
  split at h
  · cases h
  · rename_i hname
    cases h
    exact ⟨by simpa using hname, Cut.passes_many isDottedChar c⟩

theorem isSound_moduleImport : Form.IsSound moduleImport := by
  intro start s h hh
  unfold moduleImport at hh
  simp only [Option.bind_eq_bind] at hh
  split at hh
  · cases hh
  have hindent := Cut.passes_many isSpace ⟨0, s⟩
  split at hh
  · rename_i c₁ hfrom
    obtain ⟨c₂, hblank, hh⟩ := Option.bind_eq_some_iff.mp hh
    obtain ⟨⟨name, c₃⟩, hname, hh⟩ := Option.bind_eq_some_iff.mp hh
    obtain ⟨c₄, hblank', hh⟩ := Option.bind_eq_some_iff.mp hh
    obtain ⟨c₅, himport, hh⟩ := Option.bind_eq_some_iff.mp hh
    obtain rfl := Option.some.inj hh
    obtain ⟨hne, hpath⟩ := passes_dottedName hname
    have hfront := (hindent.trans (Cut.passes_literal hfrom)).trans (Cut.passes_oneOrMore hblank)
    have hbehind := (Cut.passes_oneOrMore hblank').trans (Cut.passes_literal himport)
    exact ⟨_, .of_passes hne rfl rfl hfront hpath hbehind⟩
  · obtain ⟨c₁, himport, hh⟩ := Option.bind_eq_some_iff.mp hh
    obtain ⟨c₂, hblank, hh⟩ := Option.bind_eq_some_iff.mp hh
    obtain ⟨⟨name, c₃⟩, hname, hh⟩ := Option.bind_eq_some_iff.mp hh
    obtain rfl := Option.some.inj hh
    obtain ⟨hne, hpath⟩ := passes_dottedName hname
    have hfront := (hindent.trans (Cut.passes_literal himport)).trans (Cut.passes_oneOrMore hblank)
    have htail : 0 = c₃.passed - c₂.passed - name.length := by
      rw [hpath.passed_eq, Nat.add_sub_cancel_left, Nat.sub_self]
    exact ⟨_, .of_passes hne rfl htail hfront hpath (.refl c₃)⟩

/-! ## Going through a text -/

/-- Whether a line begins at a place of a text. -/
def startsLine (text : List Char) (i : ℕ) : Bool := i = 0 || text[i - 1]? = some '\n'

/-- What a form reads at a place of a text. -/
def Form.at? (form : Form) (text : List Char) (i : ℕ) : Option Hit :=
  form (startsLine text i) (text.drop i)

/-- The statements of a form in a text from a place on. Each is the first behind the one before it. -/
inductive Scans (form : Form) (text : List Char) : ℕ → List (ℕ × Hit) → Prop where
  /-- No statement is left. -/
  | done {i : ℕ} (hnone : ∀ j, i ≤ j → j < text.length → form.at? text j = none) :
      Scans form text i []
  /-- The next statement. -/
  | next {i j : ℕ} {h : Hit} {hits : List (ℕ × Hit)} (hle : i ≤ j) (hlt : j < text.length)
      (hnone : ∀ k, i ≤ k → k < j → form.at? text k = none) (hsome : form.at? text j = some h)
      (hrest : Scans form text (j + h.size) hits) : Scans form text i ((j, h) :: hits)

namespace Scans

variable {form : Form} {text : List Char}

theorem of_none {i : ℕ} {hits : List (ℕ × Hit)} (h : form.at? text i = none)
    (hs : Scans form text (i + 1) hits) : Scans form text i hits := by
  have hnone : ∀ {n : ℕ}, (∀ j, i + 1 ≤ j → j < n → form.at? text j = none) →
      ∀ j, i ≤ j → j < n → form.at? text j = none := by
    intro n hn j hij hj
    rcases Nat.eq_or_lt_of_le hij with rfl | hlt
    · exact h
    · exact hn j hlt hj
  cases hs with
  | done hall => exact .done (hnone hall)
  | next hle hlt hall hsome hrest => exact .next (by omega) hlt (hnone hall) hsome hrest

/-- There is one way to go through a text. -/
theorem unique {i : ℕ} {hits hits' : List (ℕ × Hit)} (h : Scans form text i hits)
    (h' : Scans form text i hits') : hits = hits' := by
  induction h generalizing hits' with
  | done hnone =>
    cases h' with
    | done => rfl
    | next hle hlt _ hsome => simp [hnone _ hle hlt] at hsome
  | @next i j h hits hle hlt hnone hsome hrest ih =>
    cases h' with
    | done hall => simp [hall _ hle hlt] at hsome
    | @next _ j' h' hits' hle' hlt' hnone' hsome' hrest' =>
      obtain rfl : j = j' := by
        rcases Nat.lt_trichotomy j j' with hj | hj | hj
        · simp [hnone' _ hle hj] at hsome
        · exact hj
        · simp [hnone _ hle' hj] at hsome'
      obtain rfl : h = h' := Option.some.inj (hsome.symm.trans hsome')
      rw [ih hrest']

theorem le_of_mem {i : ℕ} {hits : List (ℕ × Hit)} (h : Scans form text i hits) {x : ℕ × Hit}
    (hx : x ∈ hits) : i ≤ x.1 := by
  induction h with
  | done => cases hx
  | next hle _ _ _ _ ih =>
    rcases List.mem_cons.mp hx with rfl | hx
    · exact hle
    · have := ih hx
      omega

theorem at?_of_mem {i : ℕ} {hits : List (ℕ × Hit)} (h : Scans form text i hits) {x : ℕ × Hit}
    (hx : x ∈ hits) : form.at? text x.1 = some x.2 := by
  induction h with
  | done => cases hx
  | next _ _ _ hsome _ ih =>
    rcases List.mem_cons.mp hx with rfl | hx
    · exact hsome
    · exact ih hx

theorem pairwise {i : ℕ} {hits : List (ℕ × Hit)} (h : Scans form text i hits) :
    hits.Pairwise fun x y => x.1 + x.2.size ≤ y.1 := by
  induction h with
  | done => exact .nil
  | next _ _ _ _ hrest ih => exact .cons (fun y hy => hrest.le_of_mem hy) ih

end Scans

/-- The place, line and path of a statement that is read at some place of a text. -/
def occurrenceAt (text : List Char) (x : ℕ × Hit) : Occurrence where
  place := x.1 + x.2.lead
  line := 1 + (text.take (x.1 + x.2.lead)).count '\n'
  path := x.2.path

/-- A search has passed `front` and reached `s`, with the place, the line and whether a line begins
there. -/
structure IsAt (text front s : List Char) (place line : ℕ) (lineStart : Bool) : Prop where
  text_eq : text = front ++ s
  place_eq : place = front.length
  line_eq : line = 1 + front.count '\n'
  start_eq : lineStart = startsLine text place

namespace IsAt

variable {text front s : List Char} {place line : ℕ} {lineStart : Bool} {c : Char}

theorem start (text : List Char) : IsAt text [] text 0 1 true := ⟨rfl, rfl, rfl, rfl⟩

theorem next (h : IsAt text front (c :: s) place line lineStart) :
    IsAt text (front ++ [c]) s (place + 1) (if c = '\n' then line + 1 else line) (c = '\n') where
  text_eq := by simpa using h.text_eq
  place_eq := by simp [h.place_eq]
  line_eq := by
    rw [h.line_eq, List.count_append, List.count_singleton]
    by_cases hc : c = '\n' <;> simp [hc, Nat.add_assoc]
  start_eq := by simp [startsLine, h.text_eq, h.place_eq]

theorem at?_eq (h : IsAt text front (c :: s) place line lineStart) (form : Form) :
    form.at? text place = form lineStart (c :: s) := by
  rw [Form.at?, ← h.start_eq, h.text_eq, h.place_eq, List.drop_left]

theorem place_lt (h : IsAt text front (c :: s) place line lineStart) : place < text.length := by
  rw [h.text_eq, h.place_eq, List.length_append, List.length_cons]
  omega

theorem occurrence_eq (h : IsAt text front s place line lineStart) (hit : Hit) :
    ⟨place + hit.lead, line + (s.take hit.lead).count '\n', hit.path⟩ =
      occurrenceAt text (place, hit) := by
  rw [occurrenceAt, h.text_eq, h.place_eq, List.take_length_add_append, List.count_append, h.line_eq,
    Nat.add_assoc]

end IsAt

/-- **The search goes through the text:** what it finds from a place on, behind what belongs to the last
statement, are the statements there. -/
theorem occurrences_eq {form : Form} (hform : form.IsSound) {text front s : List Char}
    {skip place line : ℕ} {lineStart : Bool} {found : List Occurrence}
    (hat : IsAt text front s place line lineStart) :
    ∃ hits, Scans form text (place + skip) hits ∧
      occurrences form skip place line lineStart found s =
        found.reverse ++ hits.map (occurrenceAt text) := by
  induction s generalizing front skip place line lineStart found with
  | nil =>
    refine ⟨[], .done fun j hj hlt => ?_, by simp [occurrences]⟩
    rw [hat.text_eq, List.append_nil, ← hat.place_eq] at hlt
    omega
  | cons c s ih =>
    cases skip with
    | succ skip =>
      obtain ⟨hits, hscans, hfound⟩ := @ih _ skip _ _ _ found hat.next
      refine ⟨hits, ?_, hfound⟩
      rwa [Nat.add_right_comm, Nat.add_assoc] at hscans
    | zero =>
      cases hread : form lineStart (c :: s) with
      | none =>
        obtain ⟨hits, hscans, hfound⟩ := @ih _ 0 _ _ _ found hat.next
        refine ⟨hits, .of_none ((hat.at?_eq form).trans hread) hscans, ?_⟩
        simpa only [occurrences, hread] using hfound
      | some h =>
        obtain ⟨_, hreads⟩ := hform lineStart (c :: s) h hread
        obtain ⟨hits, hscans, hfound⟩ :=
          @ih _ (h.size - 1) _ _ _ (occurrenceAt text (place, h) :: found) hat.next
        have hnext : place + 1 + (h.size - 1) = place + h.size := by
          have hpos := hreads.size_pos
          omega
        rw [hnext] at hscans
        refine ⟨(place, h) :: hits, .next (Nat.le_refl _) hat.place_lt (fun k hk hk' => ?_)
          ((hat.at?_eq form).trans hread) hscans, ?_⟩
        · omega
        · simp only [occurrences, hread, hat.occurrence_eq h]
          rw [← Hit.size, hfound]
          simp

/-! ## Statements in a text -/

namespace Occurrence

/-- The path of a statement stands in the text at its place, and the line is the line of that place. -/
structure StandsIn (o : Occurrence) (text : List Char) : Prop where
  path_ne_nil : o.path ≠ []
  path_stands : o.path <+: text.drop o.place
  line_eq : o.line = 1 + (text.take o.place).count '\n'

/-- The paths of two statements do not overlap. -/
def Apart (a b : Occurrence) : Prop :=
  a.place + a.path.length ≤ b.place ∨ b.place + b.path.length ≤ a.place

/-- The path of a statement stands behind a quote, which follows one of the given texts, blanks apart. -/
def IsQuoted (ends : List (List Char)) (text : List Char) (o : Occurrence) : Prop :=
  ∃ front q, isQuote q = true ∧ text.take o.place = front ++ [q] ∧
    (∀ ch ∈ o.path, isQuote ch = false) ∧ ∃ e ∈ ends, e <:+ shown front

theorem place_ne_of_isQuoted {ends ends' : List (List Char)} {text : List Char} {a b : Occurrence}
    (hends : ∀ e ∈ ends, ∀ e' ∈ ends', ¬e <:+ e' ∧ ¬e' <:+ e) (ha : a.IsQuoted ends text)
    (hb : b.IsQuoted ends' text) : a.place ≠ b.place := by
  intro hplace
  obtain ⟨front, q, -, hfront, -, e, he, hsuffix⟩ := ha
  obtain ⟨front', q', -, hfront', -, e', he', hsuffix'⟩ := hb
  rw [hplace, hfront'] at hfront
  obtain ⟨rfl, -⟩ := List.append_inj' hfront rfl
  obtain ⟨hnot, hnot'⟩ := hends e he e' he'
  rcases List.suffix_or_suffix_of_suffix hsuffix hsuffix' with h | h
  · exact hnot h
  · exact hnot' h

/-- A path in quotes does not reach over the quote before another. -/
theorem end_le_of_isQuoted {ends ends' : List (List Char)} {text : List Char} {a b : Occurrence}
    (ha : a.IsQuoted ends text) (hb : b.IsQuoted ends' text) (hin : a.StandsIn text)
    (hlt : a.place < b.place) : a.place + a.path.length ≤ b.place := by
  obtain ⟨-, -, -, -, hpath, -⟩ := ha
  obtain ⟨front, q, hq, hfront, -⟩ := hb
  obtain ⟨rest, hrest⟩ := hin.path_stands
  by_contra hover
  obtain ⟨k, hk, hle⟩ : ∃ k, b.place = a.place + (k + 1) ∧ k + 1 ≤ a.path.length :=
    ⟨b.place - a.place - 1, by omega, by omega⟩
  -- the quote would be a character of the path
  have htake : text.take a.place ++ a.path.take (k + 1) = front ++ [q] := by
    have hadd : text.take b.place = text.take a.place ++ (text.drop a.place).take (k + 1) := by
      rw [hk, List.take_add]
    rw [← hfront, hadd, ← hrest, List.take_append_of_le_length hle]
  have hmem : q ∈ a.path.take (k + 1) := by
    rcases List.eq_nil_or_concat' (a.path.take (k + 1)) with hnil | ⟨init, last, hlast⟩
    · rw [List.take_eq_nil_iff] at hnil
      simp [hin.path_ne_nil] at hnil
    · rw [hlast, ← List.append_assoc] at htake
      obtain ⟨-, hq⟩ := List.append_inj' htake rfl
      rw [hlast, List.singleton_inj.mp hq]
      exact List.mem_append_right _ List.mem_cons_self
  exact Bool.false_ne_true ((hpath q (List.mem_of_mem_take hmem)).symm.trans hq)

theorem apart_of_isQuoted {ends ends' : List (List Char)} {text : List Char} {a b : Occurrence}
    (ha : a.IsQuoted ends text) (hb : b.IsQuoted ends' text) (hina : a.StandsIn text)
    (hinb : b.StandsIn text) (hne : a.place ≠ b.place) : a.Apart b := by
  rcases Nat.lt_or_gt_of_ne hne with hlt | hlt
  · exact .inl (end_le_of_isQuoted ha hb hina hlt)
  · exact .inr (end_le_of_isQuoted hb ha hinb hlt)

end Occurrence

/-- A form reports a statement of a text when going through the text from its start. -/
def Form.Reports (form : Form) (text : List Char) (o : Occurrence) : Prop :=
  ∃ hits, Scans form text 0 hits ∧ o ∈ hits.map (occurrenceAt text)

namespace Form

variable {form : Form} {text : List Char}

theorem exists_scans (hform : form.IsSound) (text : List Char) : ∃ hits, Scans form text 0 hits ∧
    occurrences form 0 0 1 true [] text = hits.map (occurrenceAt text) :=
  @occurrences_eq form hform text [] text 0 0 1 true [] (.start text)

theorem mem_occurrences_iff (hform : form.IsSound) {o : Occurrence} :
    o ∈ occurrences form 0 0 1 true [] text ↔ form.Reports text o := by
  obtain ⟨hits, hscans, hfound⟩ := exists_scans hform text
  rw [hfound]
  constructor
  · exact fun ho => ⟨hits, hscans, ho⟩
  · rintro ⟨hits', hscans', ho⟩
    rwa [hscans.unique hscans']

theorem take_place {i : ℕ} {h : Hit} {front : List Char} (hreads : h.Reads front (text.drop i)) :
    text.take (i + h.lead) = text.take i ++ front := by
  obtain ⟨behind, rest, heq, -⟩ := hreads.eq_append
  rw [List.take_add, heq, ← hreads.length_front, List.append_assoc, List.append_assoc, List.take_left]

theorem Reports.standsIn (hform : form.IsSound) {o : Occurrence} (h : form.Reports text o) :
    o.StandsIn text := by
  obtain ⟨hits, hscans, ho⟩ := h
  obtain ⟨⟨i, h⟩, hx, rfl⟩ := List.mem_map.mp ho
  obtain ⟨front, hreads⟩ := hform _ _ _ (hscans.at?_of_mem hx)
  obtain ⟨behind, rest, heq, -⟩ := hreads.eq_append
  refine ⟨hreads.path_ne_nil, ?_, rfl⟩
  have hdrop : text.drop (i + h.lead) = h.path ++ (behind ++ rest) := by
    rw [← List.drop_drop, heq, ← hreads.length_front, List.append_assoc, List.append_assoc,
      List.drop_left]
  exact ⟨behind ++ rest, hdrop.symm⟩

theorem Reports.isQuoted {ends : List (List Char)} (hform : form.IsQuoting ends) {o : Occurrence}
    (h : form.Reports text o) : o.IsQuoted ends text := by
  obtain ⟨hits, hscans, ho⟩ := h
  obtain ⟨⟨i, h⟩, hx, rfl⟩ := List.mem_map.mp ho
  obtain ⟨front, q, hq, hreads, hpath, e, he, hsuffix⟩ := hform _ _ _ (hscans.at?_of_mem hx)
  refine ⟨text.take i ++ front, q, hq, ?_, hpath, e, he, ?_⟩
  · rw [List.append_assoc]
    exact take_place hreads
  · rw [shown_append]
    exact hsuffix.trans (List.suffix_append _ _)

theorem pairwise_occurrences (hform : form.IsSound) :
    (occurrences form 0 0 1 true [] text).Pairwise Occurrence.Apart := by
  obtain ⟨hits, hscans, hfound⟩ := exists_scans hform text
  rw [hfound, List.pairwise_map]
  refine hscans.pairwise.imp fun {x y} hxy => .inl ?_
  simp only [occurrenceAt, Hit.size] at hxy ⊢
  omega

end Form

/-! ## The imports of a text -/

theorem isSound_of_mem_forms {language : Language} {form : Form} (h : form ∈ forms language) :
    form.IsSound := by
  have hcall : ∀ {word}, shown word.toList = word.toList → (callForm word).IsSound :=
    fun hword => (isQuoting_callForm hword).isSound
  have hscript : form ∈ [staticImport, callForm "require", callForm "import"] → form.IsSound := by
    intro h
    rcases List.mem_cons.mp h with rfl | h
    · exact isQuoting_staticImport.isSound
    · rcases List.mem_pair.mp h with rfl | rfl
      · exact hcall (by decide)
      · exact hcall (by decide)
  cases language with
  | typescript => exact hscript h
  | javascript => exact hscript h
  | python =>
    obtain rfl := List.mem_singleton.mp h
    exact isSound_moduleImport
  | go =>
    obtain rfl := List.mem_singleton.mp h
    exact isSound_groupImport
  | _ => cases h

/-- Two forms of a language never report the same place, and the paths that they report do not
overlap. -/
theorem pairwise_forms (language : Language) (text : List Char) :
    (forms language).Pairwise fun form form' => ∀ a b, form.Reports text a → form'.Reports text b →
      a.place ≠ b.place ∧ a.Apart b := by
  have hpair : ∀ {ends ends' : List (List Char)} {form form' : Form}, form.IsQuoting ends →
      form'.IsQuoting ends' → (∀ e ∈ ends, ∀ e' ∈ ends', ¬e <:+ e' ∧ ¬e' <:+ e) →
      ∀ a b, form.Reports text a → form'.Reports text b → a.place ≠ b.place ∧ a.Apart b := by
    intro ends ends' form form' hform hform' hends a b ha hb
    have hne := Occurrence.place_ne_of_isQuoted hends (ha.isQuoted hform) (hb.isQuoted hform')
    exact ⟨hne, Occurrence.apart_of_isQuoted (ha.isQuoted hform) (hb.isQuoted hform')
      (ha.standsIn hform.isSound) (hb.standsIn hform'.isSound) hne⟩
  have hrequire : Form.IsQuoting _ (callForm "require") := isQuoting_callForm (by decide)
  have himport : Form.IsQuoting _ (callForm "import") := isQuoting_callForm (by decide)
  have hscript : [staticImport, callForm "require", callForm "import"].Pairwise fun form form' =>
      ∀ a b, form.Reports text a → form'.Reports text b → a.place ≠ b.place ∧ a.Apart b := by
    refine .cons (List.forall_mem_cons.mpr ⟨?_, List.forall_mem_singleton.mpr ?_⟩)
      (.cons (List.forall_mem_singleton.mpr ?_) (List.pairwise_singleton _ _))
    · exact hpair isQuoting_staticImport hrequire (by decide)
    · exact hpair isQuoting_staticImport himport (by decide)
    · exact hpair hrequire himport (by decide)
  cases language with
  | typescript => exact hscript
  | javascript => exact hscript
  | python => exact List.pairwise_singleton _ _
  | go => exact List.pairwise_singleton _ _
  | _ => exact .nil

/-- The statements of all forms of a language in a text, in the order of their places. -/
def sortedOccurrences (language : Language) (text : List Char) : List Occurrence :=
  ((forms language).flatMap fun form => occurrences form 0 0 1 true [] text).mergeSort
    fun a b => a.place ≤ b.place

theorem mem_sortedOccurrences_iff {language : Language} {text : List Char} {o : Occurrence} :
    o ∈ sortedOccurrences language text ↔ ∃ form ∈ forms language, form.Reports text o := by
  rw [sortedOccurrences, List.mem_mergeSort, List.mem_flatMap]
  exact exists_congr fun form => and_congr_right fun hform =>
    Form.mem_occurrences_iff (isSound_of_mem_forms hform)

theorem standsIn_of_mem {language : Language} {text : List Char} {o : Occurrence}
    (h : o ∈ sortedOccurrences language text) : o.StandsIn text := by
  obtain ⟨form, hform, ho⟩ := mem_sortedOccurrences_iff.mp h
  exact ho.standsIn (isSound_of_mem_forms hform)

theorem pairwise_apart (language : Language) (text : List Char) :
    (sortedOccurrences language text).Pairwise Occurrence.Apart := by
  refine ((List.mergeSort_perm _ _).pairwise_iff fun {a b} h => h.symm).mpr ?_
  refine List.pairwise_flatMap.mpr
    ⟨fun form hform => Form.pairwise_occurrences (isSound_of_mem_forms hform), ?_⟩
  refine (pairwise_forms language text).imp_of_mem
    fun {form form'} hform hform' hdiff a ha b hb => ?_
  have hreports := (Form.mem_occurrences_iff (isSound_of_mem_forms hform)).mp ha
  have hreports' := (Form.mem_occurrences_iff (isSound_of_mem_forms hform')).mp hb
  exact (hdiff a b hreports hreports').2

theorem pairwise_place_le (language : Language) (text : List Char) :
    (sortedOccurrences language text).Pairwise fun a b => a.place ≤ b.place := by
  have hsorted : (sortedOccurrences language text).Pairwise
      fun a b => decide (a.place ≤ b.place) = true := by
    refine List.pairwise_mergeSort (fun a b c hab hbc => ?_) (fun a b => ?_) _
    · simp only [decide_eq_true_eq] at hab hbc ⊢
      exact hab.trans hbc
    · simpa using Nat.le_total a.place b.place
  exact hsorted.imp of_decide_eq_true

/-- **The imports of a text are its import statements, each once and in order.** The path of each stands
in the text at its place, places increase strictly, and the paths do not overlap. What is found is what
the forms of the language report, each going through the text on its own, and no place is reported by two
of them. -/
theorem imports_in_order (language : Language) (text : String) :
    ∃ found : List Occurrence,
      imports language text = found.map (fun o => ⟨String.ofList o.path, some (.number o.line)⟩) ∧
      (found.Pairwise fun a b => a.place < b.place ∧ a.place + a.path.length ≤ b.place) ∧
      (∀ o ∈ found, o.StandsIn text.toList) ∧
      (∀ o, o ∈ found ↔ ∃ form ∈ forms language, form.Reports text.toList o) ∧
      (forms language).Pairwise fun form form' => ∀ a b, form.Reports text.toList a →
        form'.Reports text.toList b → a.place ≠ b.place := by
  refine ⟨sortedOccurrences language text.toList, rfl, ?_, fun o ho => standsIn_of_mem ho,
    fun o => mem_sortedOccurrences_iff,
    (pairwise_forms language text.toList).imp fun {form form'} hdiff a b ha hb => (hdiff a b ha hb).1⟩
  refine ((pairwise_place_le language text.toList).and (pairwise_apart language text.toList)).imp_of_mem
    fun {a b} ha hb ⟨hle, hapart⟩ => ?_
  have hpath := List.length_pos_iff.mpr (standsIn_of_mem ha).path_ne_nil
  have hpath' := List.length_pos_iff.mpr (standsIn_of_mem hb).path_ne_nil
  rcases hapart with hapart | hapart <;> omega

end Layering.Source
