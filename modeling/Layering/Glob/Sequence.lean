/-!
# Patterns over sequences

A pattern over a sequence is a list of steps. A step either takes exactly one item that passes a test,
or any number of items in a row that pass it. Whether a sequence can be taken by the steps is decided
by a row of marks, one for each position of the sequence: after each step, the marked positions are
those that the steps so far can reach.
-/

namespace Layering.Glob

/-- One step of a pattern over a sequence. -/
inductive Step (α : Type) where
  /-- Takes exactly one item. -/
  | one (test : α → Bool)
  /-- Takes any number of items in a row. -/
  | many (test : α → Bool)

/-- Marks every position that can be reached from a marked one over items that pass the test;
`carry` says whether the first position is reached from before. -/
def spread {α : Type} (test : α → Bool) (carry : Bool) : List α → List Bool → List Bool
  | [], row => [carry || row.headD false]
  | x :: xs, row =>
    let reached := carry || row.headD false
    reached :: spread test (reached && test x) xs row.tail

/-- The positions that are reached by one step from the marked ones. -/
def advance {α : Type} (xs : List α) (row : List Bool) : Step α → List Bool
  | .one test => false :: List.zipWith (fun marked x => marked && test x) row xs
  | .many test => spread test false xs row

/-- The row that marks the first position only. -/
def startRow {α : Type} (xs : List α) : List Bool := true :: xs.map fun _ => false

/-- Whether the steps can take the whole sequence. -/
def accepts {α : Type} (steps : List (Step α)) (xs : List α) : Bool :=
  (steps.foldl (advance xs) (startRow xs)).getLastD false

end Layering.Glob
