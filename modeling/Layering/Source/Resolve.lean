import Layering.Path.PathText
import Layering.Source.Language

/-!
# Where relative imports lead

A relative import leads to one of the files of a project. Dotted names count one level for each dot after
the first; other paths are followed from the directory of the importing file, with a few suffixes to try.
-/

namespace Layering.Source

open PathText

/-- Files by their paths; of two entries for one path the first counts. -/
abbrev Known := List (String × String)

/-- The suffixes that are tried behind a path, in this order. -/
def pathSuffixes : List String :=
  ["", ".ts", ".tsx", ".js", ".jsx", ".mjs", ".mts", "/index.ts", "/index.tsx", "/index.js",
   "/index.jsx", "/index.mjs", "/index.mts"]

/-- The suffixes that are tried behind a dotted name, in this order. -/
def moduleSuffixes : List String := [".py", "/__init__.py"]

/-- The first file that is found with one of the suffixes behind a path. -/
def firstKnown (known : Known) (base : List Char) (suffixes : List String) : Option String :=
  suffixes.findSome? fun s => known.lookup (String.ofList base ++ s)

/-- The file that an import path leads to from a file. -/
def resolvePath (known : Known) (source path : String) : Option String :=
  firstKnown known (normal (join (directory source.toList) path.toList)) pathSuffixes

/-- The directory a number of levels above. -/
def above : Nat → List Char → List Char
  | 0, d => d
  | n + 1, d => above n (directory d)

/-- The file that a dotted name leads to from a file. -/
def resolveModule (known : Known) (source name : String) : Option String :=
  let name := name.toList
  let bare := name.dropWhile (· = '.')
  let levels := name.length - bare.length
  let base := above (levels - 1) (directory source.toList)
  if bare.isEmpty then
    known.lookup (String.ofList (normal (join base "__init__.py".toList)))
  else
    firstKnown known (normal (join base (bare.map fun c => if c = '.' then '/' else c)))
      moduleSuffixes

/-- The file that an import leads to from a file in a language. -/
def resolve (language : Language) (known : Known) (source path : String) : Option String :=
  if language = .python then resolveModule known source path else resolvePath known source path

end Layering.Source
