import Layering.Glob.Basic
import Mathlib.Data.List.Basic
import Mathlib.Tactic.Common

/-!
# What a pattern with wildcards means

A pattern takes a sequence when the sequence can be cut into pieces, one for each step, so that each
step takes its piece (`Taken`). The row of marks that `accepts` moves along the sequence marks what
is left to take: after some steps, a rest of the sequence is marked exactly if the steps can take
what stands before it (`marked_foldl_advance`). At the end the empty rest is marked exactly if the
steps take the whole sequence (`accepts_iff`).

For the segments of a path this is the meaning of a pattern: a segment takes one name that it
matches, and `**` takes any number of names (`Derives`). A path matches a pattern with wildcards
exactly if its segments can be derived from those of the pattern (`test_compile_iff`).
-/

namespace Layering.Glob

open PathText Text

/-! ## Steps over a sequence -/

section Sequence

variable {α : Type}

/-- What one step can take. -/
inductive Step.Takes : Step α → List α → Prop where
  | one {test : α → Bool} {x : α} (h : test x = true) : Takes (.one test) [x]
  | many {test : α → Bool} {xs : List α} (h : ∀ x ∈ xs, test x = true) : Takes (.many test) xs

/-- What steps can take, one after the other. -/
inductive Taken : List (Step α) → List α → Prop where
  | nil : Taken [] []
  | cons {step : Step α} {steps : List (Step α)} {front rest : List α} (h : step.Takes front)
      (hrest : Taken steps rest) : Taken (step :: steps) (front ++ rest)

/-! ## Marks -/

/-- Whether a rest of the sequence is marked in a row. -/
def Marked : List α → List Bool → List α → Prop
  | [], row, rest => row.head? = some true ∧ rest = []
  | x :: xs, row, rest => row.head? = some true ∧ rest = x :: xs ∨ Marked xs row.tail rest

@[simp] theorem marked_nil {row : List Bool} {rest : List α} :
    Marked [] row rest ↔ row.head? = some true ∧ rest = [] := Iff.rfl

@[simp] theorem marked_cons {x : α} {xs : List α} {row : List Bool} {rest : List α} :
    Marked (x :: xs) row rest ↔
      row.head? = some true ∧ rest = x :: xs ∨ Marked xs row.tail rest := Iff.rfl

theorem not_marked_of_not_mem {xs : List α} {row : List Bool} {rest : List α} (h : true ∉ row) :
    ¬Marked xs row rest := by
  induction xs generalizing row with
  | nil => exact fun hm => h (List.mem_of_head? hm.1)
  | cons x xs ih =>
    rintro (⟨hm, -⟩ | hm)
    · exact h (List.mem_of_head? hm)
    · exact ih (fun hmem => h (List.mem_of_mem_tail hmem)) hm

/-- At the start, the whole sequence is left to take. -/
theorem marked_startRow {xs rest : List α} : Marked xs (startRow xs) rest ↔ rest = xs := by
  cases xs with
  | nil => simp [startRow]
  | cons x xs =>
    have hno : ¬Marked xs (startRow (x :: xs)).tail rest :=
      not_marked_of_not_mem (by simp [startRow])
    rw [marked_cons, or_iff_left hno]
    simp [startRow]

/-- A row with one mark for each rest marks the empty rest with its last mark. -/
theorem marked_nil_iff {xs : List α} {row : List Bool} (h : row.length = xs.length + 1) :
    Marked xs row [] ↔ row.getLastD false = true := by
  induction xs generalizing row with
  | nil =>
    obtain ⟨b, rfl⟩ := List.length_eq_one_iff.mp h
    simp
  | cons x xs ih =>
    obtain ⟨b, row, rfl⟩ := List.exists_cons_of_length_eq_add_one h
    have hlength : row.length = xs.length + 1 := Nat.succ.inj h
    obtain ⟨b', row', rfl⟩ := List.exists_cons_of_length_eq_add_one hlength
    have hlast : (b :: b' :: row').getLastD false = (b' :: row').getLastD false := rfl
    rw [marked_cons, hlast, ← ih hlength]
    simp

/-! ## One step -/

/-- Marks move over one item that passes the test; `first` is the mark of the whole sequence. -/
theorem marked_cons_zipWith {test : α → Bool} {first : Bool} {xs : List α} {row : List Bool}
    {rest : List α} :
    Marked xs (first :: List.zipWith (fun marked x => marked && test x) row xs) rest ↔
      first = true ∧ rest = xs ∨ ∃ x, test x = true ∧ Marked xs row (x :: rest) := by
  induction xs generalizing first row with
  | nil => simp
  | cons x xs ih =>
    cases row with
    | nil =>
      have hno : ∀ ys zs : List α, ¬Marked ys [] zs := fun _ _ => not_marked_of_not_mem (by simp)
      simp [hno]
    | cons marked row =>
      rw [marked_cons, List.zipWith_cons_cons, List.tail_cons, ih]
      simp only [List.head?_cons, Option.some.injEq, Bool.and_eq_true, marked_cons, List.cons.injEq,
        List.tail_cons, and_or_left, exists_or]
      grind

/-- Marks spread over items that pass the test; `carry` says whether they spread to the whole
sequence from before it. -/
theorem marked_spread {test : α → Bool} {carry : Bool} {xs : List α} {row : List Bool}
    {rest : List α} :
    Marked xs (spread test carry xs row) rest ↔
      ∃ front, (∀ x ∈ front, test x = true) ∧
        (carry = true ∧ front ++ rest = xs ∨ Marked xs row (front ++ rest)) := by
  have hreached : ∀ (carry : Bool) (row : List Bool),
      (carry || row.headD false) = true ↔ carry = true ∨ row.head? = some true := by
    intro carry row
    cases row <;> simp
  induction xs generalizing carry row with
  | nil =>
    simp only [spread, marked_nil, List.head?_cons, Option.some.injEq, hreached,
      List.append_eq_nil_iff, ← or_and_right]
    constructor
    · rintro ⟨hmark, rfl⟩
      exact ⟨[], by simp, hmark, rfl, rfl⟩
    · rintro ⟨front, -, hmark, -, rfl⟩
      exact ⟨hmark, rfl⟩
  | cons x xs ih =>
    have hwhole : ∀ zs, carry = true ∧ zs = x :: xs ∨ Marked (x :: xs) row zs ↔
        (carry = true ∨ row.head? = some true) ∧ zs = x :: xs ∨ Marked xs row.tail zs := by
      intro zs
      rw [marked_cons, ← or_assoc, or_and_right]
    rw [spread, marked_cons]
    simp only [List.head?_cons, List.tail_cons, Option.some.injEq, ih, Bool.and_eq_true, hreached,
      hwhole]
    constructor
    · rintro (⟨hmark, rfl⟩ | ⟨front, hfront, ⟨⟨hmark, hx⟩, rfl⟩ | hmarked⟩)
      · exact ⟨[], by simp, .inl ⟨hmark, rfl⟩⟩
      · exact ⟨x :: front, List.forall_mem_cons.mpr ⟨hx, hfront⟩, .inl ⟨hmark, rfl⟩⟩
      · exact ⟨front, hfront, .inr hmarked⟩
    · rintro ⟨_ | ⟨y, front⟩, hfront, ⟨hmark, heq⟩ | hmarked⟩
      · exact .inl ⟨hmark, heq⟩
      · exact .inr ⟨[], by simp, .inr hmarked⟩
      · -- the first item of the piece is that of the sequence
        obtain ⟨rfl, rfl⟩ := List.cons.inj heq
        obtain ⟨hy, hfront⟩ := List.forall_mem_cons.mp hfront
        exact .inr ⟨front, hfront, .inl ⟨⟨hmark, hy⟩, rfl⟩⟩
      · exact .inr ⟨y :: front, hfront, .inr hmarked⟩

/-- A step moves each mark over what it can take. -/
theorem marked_advance {xs : List α} {row : List Bool} {step : Step α} {rest : List α} :
    Marked xs (advance xs row step) rest ↔
      ∃ front, step.Takes front ∧ Marked xs row (front ++ rest) := by
  cases step with
  | one test =>
    rw [advance, marked_cons_zipWith]
    constructor
    · rintro (⟨hfalse, -⟩ | ⟨x, hx, hmarked⟩)
      · cases hfalse
      · exact ⟨[x], .one hx, hmarked⟩
    · rintro ⟨front, hx | -, hmarked⟩
      exact .inr ⟨_, hx, hmarked⟩
  | many test =>
    rw [advance, marked_spread]
    constructor
    · rintro ⟨front, hfront, ⟨hfalse, -⟩ | hmarked⟩
      · cases hfalse
      · exact ⟨front, .many hfront, hmarked⟩
    · rintro ⟨front, - | hfront, hmarked⟩
      exact ⟨front, hfront, .inr hmarked⟩

theorem length_spread (test : α → Bool) (carry : Bool) (xs : List α) (row : List Bool) :
    (spread test carry xs row).length = xs.length + 1 := by
  induction xs generalizing carry row with
  | nil => rfl
  | cons x xs ih => exact congrArg (· + 1) (ih ..)

theorem length_advance {xs : List α} {row : List Bool} (h : row.length = xs.length + 1)
    (step : Step α) : (advance xs row step).length = xs.length + 1 := by
  cases step with
  | one test => simp [advance, h]
  | many test => exact length_spread ..

/-! ## All steps -/

/-- **After some steps, a rest is marked exactly if the steps lead to it** from a rest that was
marked before them. -/
theorem marked_foldl_advance {xs : List α} {row : List Bool} {steps : List (Step α)}
    {rest : List α} :
    Marked xs (steps.foldl (advance xs) row) rest ↔
      ∃ front, Taken steps front ∧ Marked xs row (front ++ rest) := by
  induction steps generalizing row with
  | nil =>
    constructor
    · exact fun hmarked => ⟨[], .nil, hmarked⟩
    · rintro ⟨front, ⟨⟩, hmarked⟩
      exact hmarked
  | cons step steps ih =>
    rw [List.foldl_cons, ih]
    constructor
    · rintro ⟨back, hback, hmarked⟩
      obtain ⟨front, hfront, hmarked⟩ := marked_advance.mp hmarked
      exact ⟨front ++ back, .cons hfront hback, by rwa [List.append_assoc]⟩
    · rintro ⟨_, - | ⟨hfront, hback⟩, hmarked⟩
      rw [List.append_assoc] at hmarked
      exact ⟨_, hback, marked_advance.mpr ⟨_, hfront, hmarked⟩⟩

theorem length_foldl_advance {xs : List α} {row : List Bool} (h : row.length = xs.length + 1)
    (steps : List (Step α)) : (steps.foldl (advance xs) row).length = xs.length + 1 := by
  induction steps generalizing row with
  | nil => exact h
  | cons step steps ih => exact ih (length_advance h step)

/-- **Steps accept exactly the sequences that they can take.** -/
theorem accepts_iff {steps : List (Step α)} {xs : List α} :
    accepts steps xs = true ↔ Taken steps xs := by
  have hstart : (startRow xs).length = xs.length + 1 := by simp [startRow]
  rw [accepts, ← marked_nil_iff (length_foldl_advance hstart steps), marked_foldl_advance]
  simp [marked_startRow]

end Sequence

/-! ## Segments of a path -/

/-- The segment that stands for any number of names. -/
def doubleStar : List Char := ['*', '*']

/-- The names of a path that can be derived from the segments of a pattern. With `dot` off, dotted
names are derived only from segments that start with a dot themselves. -/
inductive Derives (dot : Bool) : List (List Char) → List (List Char) → Prop where
  /-- No names from no segments. -/
  | nil : Derives dot [] []
  /-- One name from a segment that it matches. -/
  | segment {segment name : List Char} {segments names : List (List Char)}
      (hsegment : segment ≠ doubleStar) (hmatch : matchesName segment name = true)
      (hdot : dot = false → isDotted name = true → isDotted segment = true)
      (hrest : Derives dot segments names) : Derives dot (segment :: segments) (name :: names)
  /-- Any number of names from `**`. -/
  | anyDepth {taken : List (List Char)} {segments names : List (List Char)}
      (hdot : dot = false → ∀ name ∈ taken, isDotted name = false)
      (hrest : Derives dot segments names) :
      Derives dot (doubleStar :: segments) (taken ++ names)

theorem segmentStep_doubleStar (dot : Bool) :
    segmentStep dot doubleStar = .many fun name => dot || !isDotted name := rfl

theorem segmentStep_of_ne {dot : Bool} {segment : List Char} (h : segment ≠ doubleStar) :
    segmentStep dot segment = .one fun name =>
      (dot || !isDotted name || isDotted segment) && matchesName segment name := if_neg h

/-- The derivations from segments are what their steps take. -/
theorem derives_iff_taken {dot : Bool} {segments names : List (List Char)} :
    Derives dot segments names ↔ Taken (segments.map (segmentStep dot)) names := by
  have hshield : ∀ b : Bool, (dot || !b) = true ↔ (dot = false → b = false) := by
    cases dot <;> simp
  have hunless : ∀ b b' : Bool,
      (dot || !b || b') = true ↔ (dot = false → b = true → b' = true) := by
    cases dot <;> simp
  constructor
  · intro h
    induction h with
    | nil => exact .nil
    | @segment segment name segments names hsegment hmatch hdot hrest ih =>
      have htakes : (segmentStep dot segment).Takes [name] := by
        rw [segmentStep_of_ne hsegment]
        refine .one ?_
        rw [Bool.and_eq_true, hunless]
        exact ⟨hdot, hmatch⟩
      exact .cons htakes ih
    | anyDepth hdot hrest ih =>
      rw [List.map_cons, segmentStep_doubleStar]
      exact .cons (.many fun name hname => (hshield _).mpr fun hoff => hdot hoff name hname) ih
  · intro h
    induction segments generalizing names with
    | nil =>
      cases h
      exact .nil
    | cons segment segments ih =>
      rw [List.map_cons] at h
      obtain - | ⟨hfront, hrest⟩ := h
      by_cases hsegment : segment = doubleStar
      · subst hsegment
        rw [segmentStep_doubleStar] at hfront
        obtain - | htaken := hfront
        exact .anyDepth (fun hoff name hname => (hshield _).mp (htaken name hname) hoff) (ih hrest)
      · rw [segmentStep_of_ne hsegment] at hfront
        obtain hname | - := hfront
        rw [Bool.and_eq_true, hunless] at hname
        exact .segment hsegment hname.2 hname.1 (ih hrest)

/-- A path as a pattern is compared with it: seen from the root, and without slashes at its end. -/
def trimmed (p : List Char) : List Char := dropRight (· = '/') (relative p)

theorem hasWildcard_slashed (p : List Char) : hasWildcard (slashed p) = hasWildcard p := by
  rw [hasWildcard, slashed, List.any_map]
  refine congrArg (List.any p) (funext fun c => ?_)
  by_cases hc : c = '\\'
  · simp [hc]
  · simp [hc]

theorem hasWildcard_dropHere (p : List Char) : hasWildcard (dropHere p) = hasWildcard p := by
  fun_induction dropHere p with
  | case1 p ih => simpa [hasWildcard] using ih
  | case2 p => rfl

theorem hasWildcard_dropRight (p : List Char) :
    hasWildcard (dropRight (· = '/') p) = hasWildcard p := by
  have hfront : ∀ q : List Char, hasWildcard (q.dropWhile (· = '/')) = hasWildcard q := by
    intro q
    induction q with
    | nil => rfl
    | cons c q ih =>
      by_cases hc : c = '/'
      · simpa [hc, hasWildcard] using ih
      · simp [hc]
  calc hasWildcard (dropRight (· = '/') p)
      = hasWildcard (p.reverse.dropWhile (· = '/')) := List.any_reverse
    _ = hasWildcard p.reverse := hfront _
    _ = hasWildcard p := List.any_reverse

theorem hasWildcard_trimmed (p : List Char) : hasWildcard (trimmed p) = hasWildcard p := by
  rw [trimmed, hasWildcard_dropRight, relative, hasWildcard_dropHere, hasWildcard_slashed]

/-- **A path matches a pattern with wildcards exactly if its names can be derived** from the
segments of the pattern: each segment gives one name that it matches, and `**` gives any number of
names. With `dot` off, `**` gives no dotted names, and other segments only if they start with a
dot. -/
theorem test_compile_iff {pattern : List Char} (h : hasWildcard pattern = true) (dot : Bool)
    (path : List Char) :
    (compile dot pattern).test path = true ↔
      Derives dot (segments (trimmed pattern)) (segments (trimmed path)) := by
  have hcompile :
      compile dot pattern = .steps ((segments (trimmed pattern)).map (segmentStep dot)) :=
    if_pos ((hasWildcard_trimmed pattern).trans h)
  rw [hcompile, derives_iff_taken, ← accepts_iff]
  rfl

theorem test_compile_iff_dottedDirectory :
    hasWildcard "./src/**/*.py".toList = true ∧
      Derives true (segments (trimmed "./src/**/*.py".toList))
        (segments (trimmed ".\\src\\.cache\\old/main.py".toList)) ∧
      ¬Derives false (segments (trimmed "./src/**/*.py".toList))
        (segments (trimmed ".\\src\\.cache\\old/main.py".toList)) := by
  have h : hasWildcard "./src/**/*.py".toList = true := by decide +kernel
  refine ⟨h, (test_compile_iff h true _).mp (by decide +kernel), fun hderives => ?_⟩
  have hmatch := (test_compile_iff h false _).mpr hderives
  revert hmatch
  decide +kernel

end Layering.Glob
