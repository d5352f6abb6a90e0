import Layering.Glob.Segment
import Layering.Path.PathText

/-!
# Path patterns

A pattern with wildcards is matched segment by segment, and a segment `**` stands for any number of
segments. Names that start with a dot may be shielded from wildcards. A pattern without wildcards
names a path and matches it and everything below it.
-/

namespace Layering

/-- A compiled path pattern. -/
inductive Glob where
  /-- A path and everything below it. -/
  | subtree (path : List Char)
  /-- Steps over the segments of a path. -/
  | steps (steps : List (Glob.Step (List Char)))

namespace Glob

open PathText Text

/-- Whether a pattern has a wildcard character. -/
def hasWildcard (p : List Char) : Bool := p.any fun c => c = '*' || c = '?' || c = '['

/-- A path without `./` at its start, however often it is repeated there. -/
def dropHere : List Char → List Char
  | '.' :: '/' :: p => dropHere p
  | p => p

/-- A path as patterns see it: with slashes only, and seen from the root. -/
def relative (p : List Char) : List Char := dropHere (slashed p)

/-- Whether a name starts with a dot. -/
def isDotted (name : List Char) : Bool := name.head? == some '.'

/-- The step of one segment of a pattern. With `dot` off, a wildcard takes no dotted name, unless the
segment itself starts with a dot. -/
def segmentStep (dot : Bool) (segment : List Char) : Step (List Char) :=
  if segment = ['*', '*'] then .many fun name => dot || !isDotted name
  else
    let steps := (Item.parse segment).map Item.step
    .one fun name => (dot || !isDotted name || isDotted segment) && accepts steps name

/-- Compiles a pattern. -/
def compile (dot : Bool) (pattern : List Char) : Glob :=
  let p := dropRight (· = '/') (relative pattern)
  if hasWildcard p then .steps ((segments p).map (segmentStep dot)) else .subtree p

/-- Whether a path matches a compiled pattern. -/
def test (g : Glob) (path : List Char) : Bool :=
  match g with
  | .subtree p => isUnder p (relative path)
  | .steps ss => accepts ss (segments (dropRight (· = '/') (relative path)))

end Glob

end Layering
