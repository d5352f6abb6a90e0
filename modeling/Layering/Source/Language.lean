import Layering.Path.Basic
import Layering.Text.Basic
import Layering.Text.Lowercase

/-!
# Languages and kinds of source files

The language of a file is told by its suffix, and its kind by its name and a few words in its text.
-/

namespace Layering

/-- The language of a source file. -/
inductive Language where
  | typescript
  | javascript
  | python
  | go
  | rust
  | java
  | ruby
  | php
  | unknown
deriving DecidableEq, Repr

namespace Language

/-- All languages. -/
def all : List Language :=
  [typescript, javascript, python, go, rust, java, ruby, php, unknown]

/-- The name of a language. -/
def name : Language → String
  | typescript => "typescript"
  | javascript => "javascript"
  | python => "python"
  | go => "go"
  | rust => "rust"
  | java => "java"
  | ruby => "ruby"
  | php => "php"
  | unknown => "unknown"

/-- The language with a name. -/
def ofName (name : String) : Language := (all.find? (·.name = name)).getD unknown

/-- The language of files with a suffix. -/
def suffixes : List (String × Language) :=
  [(".ts", typescript), (".tsx", typescript), (".mts", typescript), (".cts", typescript),
   (".js", javascript), (".jsx", javascript), (".mjs", javascript), (".cjs", javascript),
   (".py", python), (".go", go), (".rs", rust), (".java", java), (".rb", ruby), (".php", php)]

/-- The language of the file at a path. -/
def ofPath (path : String) : Language :=
  (suffixes.lookup (String.ofList (Text.lower (Path.parse path).suffix.toList))).getD unknown

end Language

namespace Source

open Text

/-- The kind of component that a file is, judged by its path and its text. -/
def kindOf (path text : String) : String :=
  let name := lower (Path.parse path).name.toList
  let inName (word : String) : Bool := occursIn word.toList name
  let inText (word : String) : Bool := occursIn word.toList text.toList
  if inName "service" then "service"
  else if inName "component" || ".tsx".toList.isSuffixOf name || ".jsx".toList.isSuffixOf name then
    "component"
  else if inText "class " && inText "extends" then "class"
  else if inText "export default function" || inText "export function" then "function"
  else if inText "module.exports" || inText "export " then "module"
  else "file"

/-- The names that the main file of a program has, without their suffix. -/
def entryNames : List String := ["index", "main", "app", "server"]

/-- The suffixes of main files. -/
def entrySuffixes : List String := ["ts", "js", "tsx", "jsx", "mts", "mjs", "py", "go", "rs"]

/-- A letter without its case; the few letters outside of ASCII that go with an ASCII letter count as
that letter. -/
def foldLetter (c : Char) : Char :=
  if c = '\u0130' || c = '\u0131' then 'i'
  else if c = '\u017f' then 's'
  else if c = '\u212a' then 'k'
  else c.toLower

/-- Whether a path ends in the name of a main file, below some directory. -/
def isEntryPoint (path : String) : Bool :=
  let p := path.toList
  let p := if p.getLast? == some '\n' then p.dropLast else p
  match (PathText.segments p).reverse with
  | last :: _ :: _ =>
    let word := String.ofList (last.map foldLetter)
    entryNames.any fun n => entrySuffixes.any fun s => word = n ++ "." ++ s
  | _ => false

end Source

end Layering
