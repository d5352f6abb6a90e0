import Layering.Path.Basic
import Layering.Text.Quoted

/-!
# Paths that lead nowhere

A path is refused before anything is looked up when its text cannot be encoded or holds a NUL. A path
that is too long, or has too long a name in a directory, is refused when it is looked up.
-/

namespace Layering

/-- Why a path is refused. -/
inductive PathFault where
  /-- The text has a lone surrogate. -/
  | unencodable (text : String)
  /-- The text has a NUL. -/
  | nul
  /-- The path or one of its names is too long. -/
  | tooLong
deriving DecidableEq, Repr

/-- The text of a fault. -/
def PathFault.message : PathFault → String
  | unencodable text =>
    let isLone (c : Char) : Bool := (Text.surrogate? c).isSome
    let (before, rest) := text.toList.span fun c => !isLone c
    let lone := rest.takeWhile isLone
    let start := before.length
    let place := if lone.length = 1 then s!"character {quote (String.ofList lone)} in position {start}"
      else s!"characters in position {start}-{start + lone.length - 1}"
    s!"'utf-8' codec can't encode {place}: surrogates not allowed"
  | nul => "embedded null byte"
  | tooLong => "File name too long"

namespace Path

/-- The number of bytes that a name may have. -/
def maxNameSize : Nat := 255

/-- The number of bytes that a path has to stay below. -/
def maxSize : Nat := 4096

/-- Whether a character can be part of a path. Some surrogates can, as bytes that are no text. -/
def isPathChar (c : Char) : Bool :=
  match Text.surrogate? c with
  | some n => 0xdc80 ≤ n && n < 0xdd00
  | none => true

/-- The fault in the text of a path. -/
def textFault? (p : Path) : Option PathFault :=
  if !p.text.toList.all isPathChar then some (.unencodable p.text)
  else if p.text.toList.contains '\x00' then some .nul
  else none

/-- The bytes of a character in a path. A surrogate is the one byte that it stands for. -/
def charBytes (c : Char) : List UInt8 :=
  match Text.surrogate? c with
  | some n => [UInt8.ofNat n]
  | none => String.utf8EncodeChar c

/-- The number of bytes of a text in a path. -/
def byteSize (text : String) : Nat := (text.toList.flatMap charBytes).length

/-- Whether a name is too long to be looked up. -/
def isLongName (name : String) : Bool :=
  maxNameSize < byteSize name && (textFault? ⟨0, [name]⟩).isNone

/-- Whether a path is too long to be looked up. -/
def isLong (p : Path) : Bool := maxSize ≤ byteSize p.text && p.textFault?.isNone

end Path

end Layering
