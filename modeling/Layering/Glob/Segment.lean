import Layering.Glob.Sequence

/-!
# Wildcards within a segment

In one segment of a pattern, `*` stands for any characters, `?` for one, and a bracket for one
character of a set. A bracket starts with `!` to mean the characters outside the set, a bracket right
at its start belongs to the set, and a bracket that is never closed is an ordinary character. In a
set, a hyphen between two characters makes a range; a range whose ends are in the wrong order is
empty, and its ends do not belong to the set.
-/

namespace Layering.Glob

/-- One item of a segment pattern. -/
inductive Item where
  /-- Any characters, possibly none. -/
  | star
  /-- Any one character. -/
  | any
  /-- This character. -/
  | char (c : Char)
  /-- One character inside the ranges, or outside them. -/
  | set (negated : Bool) (ranges : List (Char × Char))
deriving DecidableEq, Repr

namespace Item

/-- Whether a character lies in one of the ranges. -/
def inRanges (ranges : List (Char × Char)) (c : Char) : Bool :=
  ranges.any fun (lo, hi) => lo ≤ c && c ≤ hi

/-- The step that an item is on the characters of a name. -/
def step : Item → Step Char
  | star => .many fun _ => true
  | any => .one fun _ => true
  | char c => .one (· == c)
  | set negated ranges => .one fun c => inRanges ranges c != negated

/-! ## Sets -/

/-- Splits a bracket, its opening one taken off, into its body and what follows its closing one. -/
def splitSet? (s : List Char) : Option (List Char × List Char) :=
  let skip := match s with
    | '!' :: ']' :: _ => 2
    | '!' :: _ => 1
    | ']' :: _ => 1
    | _ => 0
  match (s.drop skip).span (· ≠ ']') with
  | (_, []) => none
  | (body, _ :: after) => some (s.take skip ++ body, after)

/-- The parts of a body between the hyphens that make ranges. The first `skip` characters of a part
are no such hyphens: at least one character stands before a hyphen, and two after a hyphen belong to
the range it ends and to what follows. -/
def chunks : (fuel skip : Nat) → List Char → List (List Char)
  | 0, _, s => [s]
  | fuel + 1, skip, s =>
    match (s.drop skip).span (· ≠ '-') with
    | (_, []) => [s]
    | (body, _ :: after) => (s.take skip ++ body) :: chunks fuel 2 after

/-- A hyphen at the end of the body stands for itself. -/
def closeHyphen : List (List Char) → List (List Char)
  | [] => []
  | [s] => [s]
  | [s, []] => [s ++ ['-']]
  | s :: ss => s :: closeHyphen ss

/-- Takes out the ranges whose ends are in the wrong order, from right to left. -/
def dropEmptyRanges : List (List Char) → List (List Char)
  | [] => []
  | s :: ss =>
    match dropEmptyRanges ss with
    | [] => [s]
    | t :: ts =>
      match s.getLast?, t.head? with
      | some lo, some hi => if hi < lo then (s.dropLast ++ t.tail) :: ts else s :: t :: ts
      | _, _ => s :: t :: ts

/-- The characters of the parts, with `none` for each hyphen that makes a range. -/
def tokens : List (List Char) → List (Option Char)
  | [] => []
  | [s] => s.map some
  | s :: ss => s.map some ++ none :: tokens ss

/-- The ranges of a set; a single character is a range of its own. -/
def ranges : List (Option Char) → List (Char × Char)
  | [] => []
  | some lo :: none :: some hi :: rest => (lo, hi) :: ranges rest
  | some c :: rest => (c, c) :: ranges rest
  | none :: rest => ('-', '-') :: ranges rest

/-- The set that the body of a bracket stands for. -/
def ofBody (body : List Char) : Item :=
  let skip := if body.head? = some '!' then 2 else 1
  match tokens (dropEmptyRanges (closeHyphen (chunks body.length skip body))) with
  | some '!' :: rest => .set true (ranges rest)
  | ts => .set false (ranges ts)

/-! ## Segments -/

/-- The items of a segment pattern; `fuel` bounds their number. -/
def parseFrom : (fuel : Nat) → List Char → List Item
  | 0, _ => []
  | _, [] => []
  | fuel + 1, '*' :: s => .star :: parseFrom fuel s
  | fuel + 1, '?' :: s => .any :: parseFrom fuel s
  | fuel + 1, '[' :: s =>
    match splitSet? s with
    | some (body, after) => ofBody body :: parseFrom fuel after
    | none => .char '[' :: parseFrom fuel s
  | fuel + 1, c :: s => .char c :: parseFrom fuel s

/-- The items of a segment pattern. -/
def parse (s : List Char) : List Item := parseFrom s.length s

end Item

/-- Whether a name matches a segment pattern. -/
def matchesName (segment name : List Char) : Bool := accepts ((Item.parse segment).map Item.step) name

end Layering.Glob
