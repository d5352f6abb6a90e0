import Layering.Yaml.Event

/-!
# Nodes

A document as a tree. An alias is a leaf that names the anchor of another node of the same document. A
text holds one document at most; an anchor is set once, before the aliases that use it; and the number of
aliases may be limited, so that a short text does not stand for a huge value.
-/

namespace Layering.Yaml

/-- A node of a document. -/
inductive Node where
  | alias (name : String)
  | scalar (anchor : Option String) (tag : Tag) (text : String)
  | sequence (anchor : Option String) (tag : Tag) (items : List Node)
  | mapping (anchor : Option String) (tag : Tag) (pairs : List (Node × Node))

namespace Node

/-- A collection that has begun. What it holds so far is in reverse order. -/
inductive Open where
  | sequence (anchor : Option String) (tag : Tag) (items : List Node)
  | mapping (anchor : Option String) (tag : Tag) (pairs : List (Node × Node)) (key : Option Node)

/-- A document that is being built. -/
structure Builder where
  /-- The collections that have begun, innermost first. -/
  stack : List Open := []
  /-- The anchors set so far. -/
  anchors : List String := []
  /-- The number of aliases so far. -/
  aliases : Nat := 0
  root : Option Node := none

namespace Builder

/-- Adds a finished node to the collection it stands in. -/
def add (b : Builder) (n : Node) : Builder :=
  match b.stack with
  | [] => { b with root := some n }
  | .sequence a t items :: rest => { b with stack := .sequence a t (n :: items) :: rest }
  | .mapping a t pairs none :: rest => { b with stack := .mapping a t pairs (some n) :: rest }
  | .mapping a t pairs (some k) :: rest =>
    { b with stack := .mapping a t ((k, n) :: pairs) none :: rest }

/-- Sets an anchor, which must not be set yet. -/
def setAnchor (b : Builder) : Option String → Except Fault Builder
  | none => .ok b
  | some name =>
    if b.anchors.contains name then .error .malformed
    else .ok { b with anchors := name :: b.anchors }

/-- Adds an alias, unless there are `limit` of them. The limit counts before the name is looked up. -/
def addAlias (limit : Option Nat) (b : Builder) (name : String) : Except Fault Builder :=
  if limit.any (· < b.aliases + 1) then .error .tooManyAliases
  else if b.anchors.contains name then .ok { b.add (.alias name) with aliases := b.aliases + 1 }
  else .error .malformed

/-- Begins a collection. -/
def push (b : Builder) (o : Open) : Builder := { b with stack := o :: b.stack }

/-- Ends a sequence. -/
def endSequence (b : Builder) : Except Fault Builder :=
  match b.stack with
  | .sequence a t items :: rest => .ok ({ b with stack := rest }.add (.sequence a t items.reverse))
  | _ => .error .malformed

/-- Ends a mapping. -/
def endMapping (b : Builder) : Except Fault Builder :=
  match b.stack with
  | .mapping a t pairs none :: rest =>
    .ok ({ b with stack := rest }.add (.mapping a t pairs.reverse))
  | _ => .error .malformed

/-- Builds on with one event. -/
def step (limit : Option Nat) (b : Builder) : Event → Except Fault Builder
  | .documentStart => if b.root.isSome then .error .malformed else .ok b
  | .documentEnd | .streamEnd => .ok b
  | .alias name => b.addAlias limit name
  | .scalar a t text => (b.setAnchor a).map (·.add (.scalar a t text))
  | .sequenceStart a t => (b.setAnchor a).map (·.push (.sequence a t []))
  | .sequenceEnd => b.endSequence
  | .mappingStart a t => (b.setAnchor a).map (·.push (.mapping a t [] none))
  | .mappingEnd => b.endMapping
  | .fault f => .error f

/-- Builds on with events up to the end of the text. -/
def run (limit : Option Nat) (b : Builder) : List Event → Except Fault (Option Node)
  | [] => .error .malformed
  | e :: es =>
    if e = .streamEnd then .ok b.root
    else match b.step limit e with
      | .ok b => run limit b es
      | .error f => .error f

end Builder

/-- The document that events make up, if there is one, with at most `limit` aliases. -/
def ofEventsWithin (limit : Option Nat) (es : List Event) : Except Fault (Option Node) :=
  Builder.run limit {} es

/-- The document that events make up, if there is one. -/
def ofEvents (es : List Event) : Except Fault (Option Node) := ofEventsWithin (some maxAliases) es

end Node

end Layering.Yaml
