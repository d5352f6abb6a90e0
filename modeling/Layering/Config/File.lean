import Layering.Config.Merge
import Layering.Config.Schema
import Layering.Files.Tree
import Layering.Notice
import Layering.Text.Lowercase
import Layering.Yaml.Document

/-!
# Configuration files

A configuration is looked for under a few names, read from its file, put over the configuration it
takes rules from, and checked. Besides its result each step has notices, also when it fails.
-/

namespace Layering.Config

/-- The names of configuration files, in the order in which they are looked for. -/
def fileNames : List String :=
  [".architecture.yml", ".architecture.yaml", "architecture.config.yml", "architecture.config.yaml"]

/-- The entry of a directory whose name is the given one but for the case of its letters. -/
def entryLike? (entries : List String) (name : String) : Option String :=
  entries.reverse.find? fun e => String.ofList (Text.lower e.toList) = name

/-- Finds the configuration file in a directory: under its exact name, or else under a name that
differs in case only. A path that is too long is refused at once, and any other that is refused when the
directory is listed. -/
def find (fs : FileSystem) (directory : Path) : Except PathFault (Option Path) × List Notice :=
  let placed (name : String) : Path := directory.append ⟨0, [name]⟩
  let isLong (p : Path) : Bool := fs.fault? p = some .tooLong
  match (fileNames.map placed).find? fun p => isLong p || fs.isFile p with
  | some p => (if isLong p then .error .tooLong else .ok (some p), [])
  | none =>
    match directory.textFault?, fs.list? directory with
    | some f, _ => (.error f, [])
    | none, none => (.ok none, [.unlistable directory.text])
    | none, some entries =>
      (.ok ((fileNames.filterMap fun n => (entryLike? entries n).map placed).find? fs.isFile), [])

/-- Reads the value in a configuration file. -/
def load (fs : FileSystem) (path : Path) : Except ConfigError Value :=
  match path.textFault?, fs.text? path with
  | some f, _ => .error (.badPath f)
  | none, none => .error (.unreadable path.text)
  | none, some text =>
    if maxSize < text.utf8ByteSize then .error (.tooLarge text.utf8ByteSize)
    else
      match Yaml.read text with
      | .ok v => .ok v
      | .error .malformed => .error (.unparsable path.text .malformed)
      | .error .tooManyAliases => .error (.unparsable path.text .tooManyAliases)
      | .error f => .error (.invalidScalar f)

/-- A configuration without the name of its base. -/
def own (entries : List (Scalar × Value)) : List (Scalar × Value) :=
  entries.filter fun (k, _) => !k.same (.text "extends")

/-- A configuration with the rules and the version that it takes over from its base. -/
def overBase (entries base : List (Scalar × Value)) : List (Scalar × Value) :=
  let merged := Entries.insert (.text "rules")
    (mergeRules (Entries.field "rules" base) (Entries.field "rules" entries)) (own entries)
  match Entries.field? "version" merged, Entries.field? "version" base with
  | none, some v => Entries.insert (.text "version") v merged
  | _, _ => merged

/-- The path of the base that a configuration names, seen from its own file. -/
def baseOf (path : Path) : Value → Except ConfigError (Option Path)
  | .null => .ok none
  | .str s =>
    if Text.isBlankText s.toList then .error (.badBase path.text)
    else .ok (some (path.parent.append (.parse s)))
  | _ => .error (.badBase path.text)

/-- The file of the base that a configuration names, if it names one. Bases are taken `depth` times at
most, and none of the files on the way, which `chain` holds, is taken again. -/
def nextBase (fs : FileSystem) (depth : Nat) (chain : List Path) (path : Path)
    (entries : List (Scalar × Value)) : Except ConfigError (Option Path) :=
  match baseOf path (Entries.field "extends" entries) with
  | .error e => .error e
  | .ok none => .ok none
  | .ok (some base) =>
    if depth = 0 then .error (.tooDeep path.text)
    else
      match base.textFault? with
      | some f => .error (.badPath f)
      | none =>
        if chain.contains (fs.resolve base) then .error (.circular path.text (fs.resolve base).text)
        else .ok (some (fs.resolve base))

/-- The entries in the file of a base. -/
def loadBase (fs : FileSystem) (base : Path) : Except ConfigError (List (Scalar × Value)) :=
  match load fs base with
  | .error e => .error e
  | .ok (.map entries) => .ok entries
  | .ok _ => .error (.baseNotAMapping base.text)

/-- Takes over what a configuration gets from its base, its base's base and so on, `depth` times at
most; `chain` holds the files on the way. -/
def extend (fs : FileSystem) :
    Nat → List Path → Path → List (Scalar × Value) →
      Except ConfigError (List (Scalar × Value)) × List Notice
  | 0, chain, path, entries => ((nextBase fs 0 chain path entries).map fun _ => own entries, [])
  | depth + 1, chain, path, entries =>
    match nextBase fs (depth + 1) chain path entries with
    | .error e => (.error e, [])
    | .ok none => (.ok (own entries), [])
    | .ok (some base) =>
      let notice := Notice.inherits path.text base.text
      match loadBase fs base with
      | .error e => (.error e, [notice])
      | .ok baseEntries =>
        let (extended, notices) := extend fs depth (chain ++ [base]) base baseEntries
        (extended.map (overBase entries), notice :: notices)

/-- A configuration that has been checked, with a version. -/
def checked (path : Path) (entries : List (Scalar × Value)) :
    Except ConfigError (List (Scalar × Value)) :=
  if hasHugeNumber entries then .error .hugeNumber
  else
    match issues (.map entries) with
    | [] =>
      match Entries.field? "version" entries with
      | some _ => .ok entries
      | none => .ok (Entries.insert (.text "version") (.str defaultVersion) entries)
    | found => .error (.invalid path.text found)

/-- Reads a configuration file, takes over what it extends, and checks the result. -/
def loadRules (fs : FileSystem) (path : Path) :
    Except ConfigError (List (Scalar × Value)) × List Notice :=
  match load fs path with
  | .error e => (.error e, [])
  | .ok (.map entries) =>
    let (extended, notices) := extend fs maxDepth [fs.resolve path] path entries
    (extended.bind (checked path), notices)
  | .ok _ => (.error (.notAMapping path.text), [])

end Layering.Config
