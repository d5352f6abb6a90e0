import Layering.Text.Basic

/-!
# Paths as texts

The rules for paths that are written with slashes: splitting into segments, joining, taking the
directory, and the normal form. Normalising walks over the segments with a stack: empty segments and
`.` are dropped, and `..` takes away the segment before it, unless there is none to take away.
-/

namespace Layering.PathText

open Text

/-- A path with its backslashes turned into slashes. -/
def slashed (p : List Char) : List Char := p.map fun c => if c = '\\' then '/' else c

/-- The segments of a path, between its slashes. -/
def segments (p : List Char) : List (List Char) := p.splitOn '/'

/-- The path with these segments. -/
def ofSegments (ss : List (List Char)) : List Char := joinWith ['/'] ss

/-- The segment that means the directory itself. -/
def here : List Char := ['.']

/-- The segment that means the directory above. -/
def up : List Char := ['.', '.']

/-- The number of slashes at the start of a path that its normal form keeps: two stay two, and three
or more become one. -/
def rootSlashes : List Char → Nat
  | '/' :: '/' :: '/' :: _ => 1
  | '/' :: '/' :: _ => 2
  | '/' :: _ => 1
  | _ => 0

/-- One segment of a path, put on the stack of those before it, the nearest on top. -/
def pushSegment (rooted : Bool) (stack : List (List Char)) (s : List Char) : List (List Char) :=
  if s = [] ∨ s = here then stack
  else if s = up then
    match stack with
    | [] => if rooted then [] else [up]
    | top :: below => if top = up then up :: stack else below
  else s :: stack

/-- The segments of the normal form of a path, its root aside. -/
def normalSegments (p : List Char) : List (List Char) :=
  ((segments p).foldl (pushSegment (rootSlashes p != 0)) []).reverse

/-- The normal form of a path. A path with no segments left is `.`. -/
def normal (p : List Char) : List Char :=
  let n := List.replicate (rootSlashes p) '/' ++ ofSegments (normalSegments p)
  if n.isEmpty then here else n

/-- The second path as seen from the first. -/
def join (a b : List Char) : List Char :=
  if b.head? = some '/' then b
  else if a.isEmpty ∨ a.getLast? = some '/' then a ++ b
  else a ++ '/' :: b

/-- The directory of a path: what stands before its last slash, without slashes at the end unless
there is nothing else. -/
def directory (p : List Char) : List Char :=
  let head := (p.reverse.dropWhile (· ≠ '/')).reverse
  let bare := dropRight (· = '/') head
  if bare.isEmpty then head else bare

/-- Whether a path is a directory or lies below it, judged by their texts. -/
def isUnder (dir p : List Char) : Bool := p == dir || (dir ++ ['/']).isPrefixOf p

end Layering.PathText
