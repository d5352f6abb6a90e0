import Layering.Path.Fault

/-!
# File systems

A file system is a tree of directories and files with a working directory. Of a file only its text
matters; a file whose bytes are no text has none. Paths are followed name by name: each name before the
last has to be a directory, and `..` leads back to the directory above.
-/

namespace Layering

/-- A file, with its text if its bytes are one, or a directory. -/
inductive Tree where
  | file (text : Option String)
  | dir (entries : List (String × Tree))

namespace Tree

/-- Whether a tree is a file. -/
def isFile : Tree → Bool
  | file _ => true
  | dir _ => false

/-- Whether a tree is a directory. -/
def isDir (t : Tree) : Bool := !t.isFile

/-- The entries of a directory. -/
def entries? : Tree → Option (List (String × Tree))
  | file _ => none
  | dir es => some es

/-- The entry of a directory with a name. -/
def child? (name : String) : Tree → Option Tree
  | file _ => none
  | dir es => es.lookup name

mutual

/-- The files of a tree, each with the names that lead to it after the names `above`, latest first. -/
def files (above : List String) : Tree → List (List String × Option String)
  | file text => [(above.reverse, text)]
  | dir es => filesIn above es

/-- The files of the entries of a directory. -/
def filesIn (above : List String) : List (String × Tree) → List (List String × Option String)
  | [] => []
  | (name, t) :: es => files (name :: above) t ++ filesIn above es

end

/-- Follows names downwards and back; the list holds the place reached and the directories above it. -/
def follow : List Tree → List String → Option (List Tree)
  | trail, [] => some trail
  | [], _ :: _ => none
  | t :: above, name :: names =>
    if name = ".." then
      if t.isDir then follow (if above.isEmpty then [t] else above) names else none
    else
      match t.child? name with
      | some c => follow (c :: t :: above) names
      | none => none

/-- Whether a name that is too long is met on the way that names lead, in a directory. -/
def meetsLongName : List Tree → List String → Bool
  | _, [] => false
  | [], _ :: _ => false
  | t :: above, name :: names =>
    if name = ".." then t.isDir && meetsLongName (if above.isEmpty then [t] else above) names
    else
      match t.child? name with
      | some c => meetsLongName (c :: t :: above) names
      | none => t.isDir && Path.isLongName name

end Tree

/-- Why a path cannot be written to. -/
inductive WriteError where
  /-- A file stands where a directory should be made. -/
  | fileExists
  /-- A file stands on the way. -/
  | notADirectory
  /-- A directory stands where a file should be written. -/
  | isADirectory
  /-- A directory on the way does not exist. -/
  | notFound
  /-- The path or a name on the way is too long. -/
  | tooLong
deriving DecidableEq, Repr

/-- A file system: its root directory, and the working directory as names from there. -/
structure FileSystem where
  root : Tree
  working : List String

namespace FileSystem

/-- The names that lead to a path from the root. -/
def namesOf (fs : FileSystem) (p : Path) : List String :=
  if p.root = 0 then fs.working ++ p.names else p.names

/-- What is found at a path. -/
def find? (fs : FileSystem) (p : Path) : Option Tree :=
  (Tree.follow [fs.root] (fs.namesOf p)).bind List.head?

/-- Why a path is refused. -/
def fault? (fs : FileSystem) (p : Path) : Option PathFault :=
  match p.textFault? with
  | some f => some f
  | none =>
    if p.isLong || Tree.meetsLongName [fs.root] (fs.namesOf p) then some .tooLong else none

/-- Whether there is a file at a path. -/
def isFile (fs : FileSystem) (p : Path) : Bool := (fs.find? p).any Tree.isFile

/-- Whether there is a directory at a path. -/
def isDir (fs : FileSystem) (p : Path) : Bool := (fs.find? p).any Tree.isDir

/-- Writes every end of line as a line feed; `read` holds what comes before, latest first. -/
def plainLines (read : List Char) : List Char → List Char
  | [] => read.reverse
  | '\r' :: '\n' :: s => plainLines ('\n' :: read) s
  | c :: s => plainLines ((if c = '\r' then '\n' else c) :: read) s

/-- The text of the file at a path. -/
def text? (fs : FileSystem) (p : Path) : Option String :=
  match fs.find? p with
  | some (.file (some s)) => some (String.ofList (plainLines [] s.toList))
  | _ => none

/-- The names of the entries of the directory at a path. -/
def list? (fs : FileSystem) (p : Path) : Option (List String) :=
  ((fs.find? p).bind Tree.entries?).map (·.map (·.1))

/-- The path from the root that a path leads to, by names alone. -/
def resolve (fs : FileSystem) (p : Path) : Path :=
  let absolute : Path := ⟨1, fs.namesOf p⟩
  .parse (String.ofList (PathText.normal absolute.text.toList))

/-- The files at or below a path that differ between two file systems, or are only in the second one. -/
def changes (before after : FileSystem) (p : Path) : List (List String × Option String) :=
  let files (fs : FileSystem) := ((fs.find? p).map (Tree.files [])).getD []
  let old := files before
  (files after).filter fun (names, text) => old.lookup names ≠ some text

/-! ## Writing -/

/-- Sets an entry of a directory, or adds it. -/
def setEntry (name : String) (t : Tree) : List (String × Tree) → List (String × Tree)
  | [] => [(name, t)]
  | (n, u) :: es => if n = name then (n, t) :: es else (n, u) :: setEntry name t es

/-- Sets the entry that names without `..` lead to; the directories on the way exist. -/
def setAt (t : Tree) : Tree → List String → Tree
  | _, [] => t
  | .file x, _ :: _ => .file x
  | .dir es, name :: names =>
    .dir (setEntry name (setAt t ((es.lookup name).getD (.dir [])) names) es)

/-- Follows names to a directory and gives its own names from the root. -/
def directoryNames? (fs : FileSystem) (names : List String) : Except WriteError (List String) :=
  let rec go : List Tree → List String → List String → Except WriteError (List String)
    | trail, done, [] =>
      match trail with
      | .dir _ :: _ => .ok done
      | _ => .error .notADirectory
    | [], _, _ :: _ => .error .notFound
    | t :: above, done, name :: names =>
      match t with
      | .file _ => .error .notADirectory
      | .dir es =>
        if name = ".." then
          go (if above.isEmpty then [t] else above) done.dropLast names
        else
          match es.lookup name with
          | some c => go (c :: t :: above) (done ++ [name]) names
          | none => .error (if Path.isLongName name then .tooLong else .notFound)
  go [fs.root] [] names

/-- Makes one directory. -/
def makeDir (fs : FileSystem) (names : List String) : Except WriteError FileSystem :=
  match names.getLast? with
  | none => .error .fileExists
  | some last =>
    match fs.directoryNames? names.dropLast with
    | .error e => .error e
    | .ok parent =>
      if ((Tree.follow [fs.root] names).bind List.head?).isSome then .error .fileExists
      else if Path.isLongName last then .error .tooLong
      else .ok { fs with root := setAt (.dir []) fs.root (parent ++ [last]) }

/-- Makes a directory with the directories on the way, unless it is there. -/
def makeDirs (fs : FileSystem) : Nat → List String → Except WriteError FileSystem
  | 0, _ => .error .notFound
  | fuel + 1, names =>
    match fs.makeDir names with
    | .ok fs => .ok fs
    | .error .notFound =>
      match makeDirs fs fuel names.dropLast with
      | .ok fs => fs.makeDir names
      | .error e => .error e
    | .error e =>
      if ((Tree.follow [fs.root] names).bind List.head?).any Tree.isDir then .ok fs else .error e

/-- Makes the directory at a path, unless it is there. -/
def ensureDir (fs : FileSystem) (p : Path) : Except WriteError FileSystem :=
  let names := fs.namesOf p
  if p.isLong then .error .tooLong else fs.makeDirs (names.length + 1) names

/-- Writes a file. -/
def write (fs : FileSystem) (p : Path) (text : String) : Except WriteError FileSystem :=
  let names := fs.namesOf p
  match names.getLast? with
  | none => .error .isADirectory
  | some last =>
    match fs.directoryNames? names.dropLast with
    | .error e => .error e
    | .ok parent =>
      if ((Tree.follow [fs.root] names).bind List.head?).any Tree.isDir then .error .isADirectory
      else if p.isLong || Path.isLongName last then .error .tooLong
      else .ok { fs with root := setAt (.file (some text)) fs.root (parent ++ [last]) }

end FileSystem

end Layering
