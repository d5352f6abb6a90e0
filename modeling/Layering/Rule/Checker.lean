import Layering.Rule.Import

/-!
# Import rules in use

A rule compiles a pattern with wildcards when an import first has to be matched against it, and keeps
it for all files that it checks afterwards. Patterns are tried one after the other up to the first
that matches, and imports up to the first that does, so only patterns that are tried are compiled.
-/

namespace Layering

open PathText Text

/-- Compiled patterns under their texts, in the order in which they were put in. -/
structure GlobMemo where
  entries : List (List Char × Glob)
  /-- Every pattern is kept as what it compiles to. -/
  compiled : ∀ e ∈ entries, e.2 = Glob.compile true e.1

namespace GlobMemo

/-- A memo without patterns. -/
def empty : GlobMemo := ⟨[], fun _ h => absurd h List.not_mem_nil⟩

/-- A memo with one more pattern. -/
def insert (m : GlobMemo) (pattern : List Char) : GlobMemo where
  entries := m.entries ++ [(pattern, Glob.compile true pattern)]
  compiled e h := by
    rcases List.mem_append.mp h with h | h
    · exact m.compiled e h
    · rw [List.mem_singleton.mp h]

/-- Looks a pattern up, or compiles it and puts it in. -/
def get (m : GlobMemo) (pattern : List Char) : Glob × GlobMemo :=
  match m.entries.lookup pattern with
  | some g => (g, m)
  | none => (Glob.compile true pattern, m.insert pattern)

/-- Whether a pattern has to be compiled before it is known whether an import matches it. -/
def needsGlob (path pattern : String) : Bool :=
  let p := ImportRule.directoryPattern pattern.toList
  !isBlankText pattern.toList && !isUnder p (slashed path.toList) &&
    (p.contains '*' || p.contains '?')

/-- Whether an import in a file matches a pattern. -/
def isMatch (m : GlobMemo) (path pattern source : String) : Bool × GlobMemo :=
  if needsGlob path pattern then
    let found := m.get (ImportRule.directoryPattern pattern.toList)
    (found.1.test (slashed path.toList), found.2)
  else (ImportRule.isMatch path pattern source, m)

/-- The first of some patterns that an import matches. -/
def firstPattern (m : GlobMemo) (path source : String) : List String → Option String × GlobMemo
  | [] => (none, m)
  | p :: ps =>
    let hit := m.isMatch path p source
    if hit.1 then (some p, hit.2) else hit.2.firstPattern path source ps

/-- Whether one of some imports matches a pattern. -/
def anyImport (m : GlobMemo) (pattern source : String) : List ImportRef → Bool × GlobMemo
  | [] => (false, m)
  | i :: is =>
    let hit := m.isMatch i.path pattern source
    if hit.1 then (true, hit.2) else hit.2.anyImport pattern source is

end GlobMemo

namespace ImportRule

/-- A rule with the patterns that it has compiled so far. -/
structure Checker where
  rule : ImportRule
  globs : GlobMemo

namespace Checker

/-- A rule that has not been used. -/
def new (r : ImportRule) : Checker := ⟨r, .empty⟩

/-- The violations of imports that match a forbidden pattern. -/
def forbidden (r : ImportRule) (source : String) (m : GlobMemo) :
    List ImportRef → List Violation × GlobMemo
  | [] => ([], m)
  | i :: is =>
    let hit := m.firstPattern i.path source r.forbidden
    let rest := forbidden r source hit.2 is
    ((hit.1.map (r.forbiddenImport source i)).toList ++ rest.1, rest.2)

/-- The violations of imports that match no allowed pattern. -/
def unlisted (r : ImportRule) (source : String) (m : GlobMemo) :
    List ImportRef → List Violation × GlobMemo
  | [] => ([], m)
  | i :: is =>
    let hit := m.firstPattern i.path source r.allowed
    let rest := unlisted r source hit.2 is
    (if hit.1.isSome then rest.1 else r.unlistedImport source i :: rest.1, rest.2)

/-- The violations of required patterns that no import matches. -/
def missing (r : ImportRule) (source : String) (imports : List ImportRef) (m : GlobMemo) :
    List String → List Violation × GlobMemo
  | [] => ([], m)
  | p :: ps =>
    let hit := m.anyImport p source imports
    let rest := missing r source imports hit.2 ps
    (if hit.1 then rest.1 else r.missingImport source p :: rest.1, rest.2)

/-- Checks a file. -/
def validate (k : Checker) (c : Component) : List Violation × Checker :=
  let r := k.rule
  let first := forbidden r c.filePath k.globs c.imports
  let second := if r.allowed.isEmpty then ([], first.2) else unlisted r c.filePath first.2 c.imports
  let third := missing r c.filePath c.imports second.2 r.required
  (first.1 ++ second.1 ++ third.1, ⟨r, third.2⟩)

/-- The rule after it has checked files, one after the other. -/
def after (k : Checker) (files : List Component) : Checker :=
  files.foldl (fun k c => (k.validate c).2) k

end Checker

end ImportRule

end Layering
