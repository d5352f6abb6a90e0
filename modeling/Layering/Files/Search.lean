import Layering.Files.Tree
import Layering.Glob.Segment

/-!
# Searching a file system

A search pattern is followed name by name from a directory. A part with wildcards stands for all entries
that match it, `**` for the directory itself and all directories below it, and any other part for the
entry with that name. Each part but the last has to lead to a directory, and so has the last when a slash
ends the pattern.

A search asks the file system about paths on its way, and fails when one of them is too long.
-/

namespace Layering

/-- One part of a search pattern. -/
inductive SearchPart where
  | name (n : String)
  | wild (items : List Char)
  | deep
deriving DecidableEq, Repr

/-- A search pattern: its parts, and whether it asks for directories only. -/
structure Search where
  parts : List SearchPart
  directories : Bool
deriving DecidableEq, Repr

/-- Why a search fails. -/
inductive SearchError where
  /-- It starts at the root, or has `**` inside a part. -/
  | unusable
  /-- It names nothing. -/
  | empty
  /-- It names nothing but ends with a slash. -/
  | onlySlash
  /-- It leads to a name or to a path that is too long. -/
  | tooLong
deriving DecidableEq, Repr

/-- A place in a file system: its names from where a search began, and the tree there with the
directories above it. -/
structure Spot where
  names : List String
  trail : List Tree

namespace Spot

/-- The tree at a place. -/
def tree? (s : Spot) : Option Tree := s.trail.head?

/-- Whether there is a directory at a place. -/
def isDir (s : Spot) : Bool := s.tree?.any Tree.isDir

/-- The place that a name leads to. -/
def child? (s : Spot) (name : String) : Option Spot :=
  (Tree.follow s.trail [name]).map fun trail => ⟨s.names ++ [name], trail⟩

/-- The places of the entries of a directory. -/
def children (s : Spot) : List Spot :=
  match s.trail with
  | .dir es :: above => es.map fun (n, t) => ⟨s.names ++ [n], t :: .dir es :: above⟩
  | _ => []

end Spot

mutual

/-- The directories at and below a tree. -/
def Tree.directories (names : List String) (above : List Tree) : Tree → List Spot
  | .file _ => []
  | .dir es => ⟨names, .dir es :: above⟩ :: Tree.entryDirectories names (.dir es :: above) es

/-- The directories at and below the entries of a directory. -/
def Tree.entryDirectories (names : List String) (above : List Tree) :
    List (String × Tree) → List Spot
  | [] => []
  | (n, t) :: es => t.directories (names ++ [n]) above ++ Tree.entryDirectories names above es

end

namespace Search

open Glob

/-- One part of a search pattern; `**` may stand only on its own. -/
def partOf (s : String) : Except SearchError SearchPart :=
  if s = "**" then .ok .deep
  else if Text.occursIn ['*', '*'] s.toList then .error .unusable
  else if s.toList.any fun c => c = '*' || c = '?' || c = '[' then .ok (.wild s.toList)
  else .ok (.name s)

/-- The search pattern that a text is. -/
def parse (pattern : String) : Except SearchError Search := do
  let p := Path.parse pattern
  let slash := pattern.toList.getLast? == some '/'
  if p.root ≠ 0 then throw .unusable
  else if p.names.isEmpty then throw (if slash then .onlySlash else .empty)
  else return ⟨← p.names.mapM partOf, slash⟩

/-- The places that a part leads to from a directory. -/
def step (s : Spot) : SearchPart → List Spot
  | .name n => (s.child? n).toList
  | .wild w => s.children.filter fun t => matchesName w (t.names.getLast?.getD "").toList
  | .deep =>
    match s.trail with
    | t :: above => t.directories s.names above
    | [] => []

/-- The places that parts lead to; `last` tells whether the last of them has to be a directory. -/
def follow (last : Bool) : List SearchPart → Spot → List Spot
  | [], s => [s]
  | part :: rest, s =>
    ((step s part).filter fun t => t.isDir || (rest.isEmpty && !last)).flatMap (follow last rest)

/-- Whether parts lead to a directory in which a name that is too long is looked up. -/
def meetsLongName : List SearchPart → Spot → Bool
  | [], _ => false
  | part :: rest, s =>
    (match part with
     | .name n => Path.isLongName n
     | _ => false) ||
    ((step s part).filter Spot.isDir).any (meetsLongName rest)

/-- The paths that the file system is asked about when a part is followed from a directory: that of a name
to be looked up, and those of directories to be listed. -/
def asked (s : Spot) : SearchPart → List (List String)
  | .name n => [s.names ++ [n]]
  | .wild _ => [s.names]
  | .deep => (step s .deep).map (·.names)

/-- Whether the file system is asked about a path that is too long, on the way that parts lead or about a
place where they end. -/
def meetsLongPath (root : Path) (last : Bool) : List SearchPart → Spot → Bool
  | [], s => (root.append ⟨0, s.names⟩).isLong
  | part :: rest, s =>
    ((asked s part).any fun names => (root.append ⟨0, names⟩).isLong) ||
    ((step s part).filter fun t => t.isDir || (rest.isEmpty && !last)).any
      (meetsLongPath root last rest)

/-- The files that a search finds from a directory, as names from there. -/
def files (search : Search) (fs : FileSystem) (root : Path) :
    Except SearchError (List (List String)) :=
  if fs.fault? root = some .tooLong then .error .tooLong
  else
    match Tree.follow [fs.root] (fs.namesOf root) with
    | some (.dir es :: above) =>
      let start : Spot := ⟨[], .dir es :: above⟩
      if meetsLongName search.parts start ||
          meetsLongPath root search.directories search.parts start then .error .tooLong
      else .ok (((follow search.directories search.parts start).filter fun s =>
        s.tree?.any Tree.isFile).map (·.names))
    | _ => .ok []

end Search

end Layering
