import Layering.Glob.Basic
import Layering.Glob.Safety
import Layering.Json.Printer
import Layering.Notice
import Layering.Value.Shown

/-!
# A cache of compiled patterns

Compiled patterns are kept under their text and their options. When the cache is full it is emptied
before the next pattern goes in. A pattern that is refused, or whose options are no record, leaves the
cache as it is.
-/

namespace Layering

namespace Glob

/-- A pair of a key and a value: a list of two, a text of two characters, or the keys of a map of two
entries. -/
def pair? : Value → Option (Scalar × Value)
  | .list [.scalar k, v] => some (k, v)
  | .str s => match s.toList with
    | [a, b] => some (.text (String.singleton a), .str (String.singleton b))
    | _ => none
  | .map [(k, _), (l, _)] => some (k, .scalar l)
  | _ => none

/-- The record that options are. Those that count as false are no options, and a list of pairs is read
as a record. -/
def record? (options : Value) : Option (List (Scalar × Value)) :=
  if !options.isTruthy then some []
  else match options with
    | .map entries => some entries
    | .list items => (items.mapM pair?).map Entries.ofList
    | _ => none

/-- The options under which a pattern is compiled, as a key: the JSON text of a record that has one, with
sorted keys, and otherwise the text by which a message would show the options. -/
def optionsKey (options : Value) : String :=
  match (record? options).filter fun entries => Json.isWritable (.map entries) with
  | some entries => String.ofList (Json.print Json.sortedLine (.map entries))
  | none => options.shownText

/-- Whether the options let wildcards take dotted names, which they do unless they say otherwise;
`none` when the options are no record. -/
def dotOption? (options : Value) : Option Bool :=
  if !options.isTruthy then some true
  else match options with
    | .map entries => some ((Entries.field? "dot" entries).map Value.isTruthy |>.getD true)
    | _ => none

/-- The number of patterns that a cache holds at most, unless it is told otherwise. -/
def defaultCacheLimit : Nat := 5000

/-- Compiled patterns under their keys, in the order in which they were put in. -/
structure Cache where
  limit : Int
  entries : List (String × Glob)

/-- Why a cache gives no compiled pattern. -/
inductive CacheError where
  | pattern (e : PatternError)
  | options

/-- A compiled pattern, and whether it had to be compiled. -/
structure Lookup where
  glob : Glob
  fresh : Bool

namespace Cache

/-- An empty cache. -/
def empty (limit : Int) : Cache := ⟨limit, []⟩

/-- The keys of a cache. -/
def keys (c : Cache) : List String := c.entries.map (·.1)

/-- The cache without its entries. -/
def clear (c : Cache) : Cache := ⟨c.limit, []⟩

/-- Whether a cache has reached its limit. -/
def isFull (c : Cache) : Bool := c.limit ≤ (c.entries.length : Int)

/-- The key of a pattern with its options. -/
def key (pattern : String) (options : Value) : String := s!"{pattern}::{optionsKey options}"

/-- Work on a cache that gives notices and may fail. A failure takes back nothing that was done before
it. -/
abbrev Work := ExceptT CacheError (StateM (Cache × List Notice))

/-- Does work on a cache that has given notices: what comes of the work, and the cache and all notices
at its end. -/
def Work.runOn {α : Type} (w : Work α) (now : Cache × List Notice) :
    Except CacheError α × Cache × List Notice :=
  w.run.run now

/-- The pattern that a value is, if it is safe. -/
def accept (purpose : String) (pattern : Value) : Work String :=
  match validate purpose pattern with
  | .error e => throw (.pattern e)
  | .ok p => pure p

/-- What the cache holds under a key. -/
def find (k : String) : Work (Option Glob) := do
  let now ← getThe (Cache × List Notice)
  return now.1.entries.lookup k

/-- Whether the options let wildcards take dotted names, if they are a record. -/
def readDot (options : Value) : Work Bool :=
  match dotOption? options with
  | none => throw .options
  | some dot => pure dot

/-- Empties the cache if it is full. -/
def makeRoom : Work Unit :=
  modify fun now =>
    if now.1.isFull then (now.1.clear, now.2 ++ [.cacheCleared now.1.limit]) else now

/-- Puts a compiled pattern in under a key that the cache does not hold. -/
def store (k : String) (g : Glob) : Work Unit :=
  modify fun now => (⟨now.1.limit, now.1.entries ++ [(k, g)]⟩, now.2)

/-! ## The steps of work -/

section Steps

variable {α β : Type} {now : Cache × List Notice}

theorem Work.runOn_bind (w : Work α) (f : α → Work β) :
    (w >>= f).runOn now = match w.runOn now with
      | (.ok a, next) => (f a).runOn next
      | (.error e, next) => (.error e, next) := by
  change (ExceptT.bindCont f (w.runOn now).1).run (w.runOn now).2 = _
  obtain ⟨e | a, next⟩ := w.runOn now
  · rfl
  · rfl

theorem runOn_accept (purpose : String) (pattern : Value) :
    (accept purpose pattern).runOn now = ((validate purpose pattern).mapError .pattern, now) := by
  unfold accept
  cases validate purpose pattern with
  | error e => rfl
  | ok p => rfl

theorem runOn_find (k : String) : (find k).runOn now = (.ok (now.1.entries.lookup k), now) := rfl

theorem runOn_readDot (options : Value) :
    (readDot options).runOn now = ((dotOption? options).elim (.error .options) .ok, now) := by
  unfold readDot
  cases dotOption? options with
  | none => rfl
  | some dot => rfl

theorem runOn_makeRoom :
    makeRoom.runOn now = (.ok (), if now.1.isFull then
      (now.1.clear, now.2 ++ [.cacheCleared now.1.limit]) else now) := rfl

end Steps

/-! ## Requests -/

/-- Looks a pattern up, or compiles it and puts it in. -/
def fetch (purpose : String) (pattern options : Value) : Work Lookup := do
  let p ← accept purpose pattern
  let k := key p options
  match ← find k with
  | some g => return ⟨g, false⟩
  | none =>
    let dot ← readDot options
    let g := compile dot p.toList
    makeRoom
    store k g
    return ⟨g, true⟩

/-- The answer of a cache to a request for a pattern, with the cache and the notices after it. -/
def get (c : Cache) (purpose : String) (pattern options : Value) :
    Except CacheError (Lookup × Cache × List Notice) :=
  match (fetch purpose pattern options).runOn (c, []) with
  | (.ok found, now) => .ok (found, now)
  | (.error e, _) => .error e

/-- With options that are a record, a request fails only for its pattern. -/
theorem get_ne_options {options : Value} {dot : Bool} (h : dotOption? options = some dot) (c : Cache)
    (purpose : String) (pattern : Value) : c.get purpose pattern options ≠ .error .options := by
  unfold get fetch
  rw [Work.runOn_bind, runOn_accept]
  cases validate purpose pattern with
  | error e => exact fun hget => nomatch hget
  | ok p =>
    dsimp only [Except.mapError]
    rw [Work.runOn_bind, runOn_find]
    cases c.entries.lookup (key p options) with
    | some g => exact fun hget => nomatch hget
    | none =>
      dsimp only
      rw [Work.runOn_bind, runOn_readDot, h]
      exact fun hget => nomatch hget

end Cache

end Glob

end Layering
