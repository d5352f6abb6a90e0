import Layering.Yaml.Tag
import Layering.Yaml.Token

/-!
# Events

The structure of a document as a sequence: where collections begin and end, and the scalars and aliases
between. An alias refers back to a node by its anchor. A fault is an event too, and the last one.
-/

namespace Layering.Yaml

/-- A step in the structure of a document. -/
inductive Event where
  | documentStart
  | documentEnd
  | streamEnd
  | alias (name : String)
  | scalar (anchor : Option String) (tag : Tag) (text : String)
  | sequenceStart (anchor : Option String) (tag : Tag)
  | sequenceEnd
  | mappingStart (anchor : Option String) (tag : Tag)
  | mappingEnd
  | fault (f : Fault)
deriving DecidableEq, Repr

namespace Event

/-- What is expected next. -/
inductive Expect where
  /-- The first document, which needs no mark. -/
  | firstDocument
  /-- The mark of a document, or the end of the text. -/
  | document
  | documentContent
  | documentEnd
  | node
  | blockEntry
  /-- An entry of a sequence that is not indented deeper than its key. -/
  | indentlessEntry
  | blockKey
  | blockValue
  | flowEntry (first : Bool)
  /-- The key of a mapping with a single entry inside a flow sequence. -/
  | pairKey
  | pairValue
  | pairEnd
  | flowKey (first : Bool)
  | flowValue
  /-- The value of a key that has none. -/
  | noValue
deriving DecidableEq, Repr

/-- The structure read so far: what is expected next and after that, the handles of tags, and the
tokens that remain. -/
structure State where
  expected : List Expect
  handles : List (String × String)
  tokens : List Token

/-- The handles that every document has. -/
def defaultHandles : List (String × String) := [("!", "!"), ("!!", Tag.authority)]

/-- An empty scalar, which is null. -/
def empty : Event := .scalar none .null ""

/-- Where a list of tokens has to go on but does not, the fault is the one that ends it. -/
def faultOf : List Token → Fault
  | .fault f :: _ => f
  | _ => .malformed

/-- The anchor and tag in front of a node. An anchor is looked for behind a tag that comes first, and a
fault there counts before the tag does. -/
def properties :
    List Token → Except Fault (Option String × Option (Option String × String) × List Token)
  | .anchor a :: .tag h s :: ts => .ok (some a, some (h, s), ts)
  | .anchor a :: ts => .ok (some a, none, ts)
  | .tag _ _ :: .fault f :: _ => .error f
  | .tag h s :: .anchor a :: ts => .ok (some a, some (h, s), ts)
  | .tag h s :: ts => .ok (none, some (h, s), ts)
  | ts => .ok (none, none, ts)

/-- The full name of a tag. A lone exclamation mark is no tag of its own. -/
def tagName? (handles : List (String × String)) :
    Option (Option String × String) → Except Fault (Option String)
  | none => .ok none
  | some (none, s) => .ok (some s)
  | some (some h, s) =>
    match handles.lookup h with
    | some uri => .ok (some (uri ++ s))
    | none => .error .malformed

/-- The tag of a collection. -/
def collectionTag (usual : Tag) : Option String → Tag
  | none => usual
  | some name => if name = "!" then usual else .ofName name

/-- The tag of a scalar: without a name it goes by the text if the scalar is plain, and a lone
exclamation mark has the same effect. -/
def scalarTag (plain : Bool) (text : String) : Option String → Tag
  | none => if plain then .ofText text else .str
  | some name => if name = "!" then .ofText text else .ofName name

/-- Reads a node. Blocks may begin only where `block` is set, and a sequence that is not indented
deeper than its key only where `indentless` is. -/
def node (block indentless : Bool) (s : State) : Except Fault (Event × State) := do
  match s.tokens with
  | .alias name :: ts => return (.alias name, { s with tokens := ts })
  | _ =>
    let (anchor, tag, ts) ← properties s.tokens
    let name ← tagName? s.handles tag
    let enter (e : Expect) (ts : List Token) : State :=
      { s with expected := e :: s.expected, tokens := ts }
    match ts with
    | .scalar plain text :: ts =>
      return (.scalar anchor (scalarTag plain text name) text, { s with tokens := ts })
    | .flowSequenceStart :: ts =>
      return (.sequenceStart anchor (collectionTag .seq name), enter (.flowEntry true) ts)
    | .flowMappingStart :: ts =>
      return (.mappingStart anchor (collectionTag .map name), enter (.flowKey true) ts)
    | .fault f :: _ => throw f
    | _ =>
      if indentless && ts.head? == some .blockEntry then
        return (.sequenceStart anchor (collectionTag .seq name), enter .indentlessEntry ts)
      else if block && ts.head? == some .blockSequenceStart then
        return (.sequenceStart anchor (collectionTag .seq name), enter .blockEntry ts.tail)
      else if block && ts.head? == some .blockMappingStart then
        return (.mappingStart anchor (collectionTag .map name), enter .blockKey ts.tail)
      else if anchor.isSome || name.isSome then
        return (.scalar anchor (scalarTag true "" name) "", { s with tokens := ts })
      else throw .malformed

/-- Reads a node, or an empty scalar if one of `ends` comes next; then `after` is expected. -/
def nodeUnless (ends : List Token) (block indentless : Bool) (after : Expect) (s : State) :
    Except Fault (Event × State) :=
  let s := { s with expected := after :: s.expected }
  match s.tokens with
  | [] => .error .malformed
  | .fault f :: _ => .error f
  | t :: _ => if ends.contains t then .ok (empty, s) else node block indentless s

/-- Reads directives: the handles they define, and whether a version was given. -/
def directives (versioned : Bool) (handles : List (String × String)) :
    List Token → Except Fault (List (String × String) × List Token)
  | .directive (.version major) :: ts =>
    if versioned || major ≠ 1 then .error .malformed else directives true handles ts
  | .directive (.tagHandle handle uri) :: ts =>
    if (handles.lookup handle).isSome then .error .malformed
    else directives versioned (handles ++ [(handle, uri)]) ts
  | .directive .other :: ts => directives versioned handles ts
  | ts => .ok (handles, ts)

/-- Reads the start of a document, or the end of the text. -/
def document (s : State) : Except Fault (Event × State) := do
  match s.tokens.dropWhile (· == .documentEnd) with
  | .streamEnd :: ts => return (.streamEnd, ⟨[], s.handles, ts⟩)
  | ts =>
    let (handles, ts) ← directives false [] ts
    match ts with
    | .documentStart :: ts =>
      return (.documentStart,
        ⟨.documentContent :: .documentEnd :: s.expected, handles ++ defaultHandles, ts⟩)
    | _ => throw (faultOf ts)

/-- Reads the next event, where `e` is expected. -/
def next (e : Expect) (s : State) : Except Fault (Event × State) := do
  let rest (ts : List Token) : State := { s with tokens := ts }
  match e, s.tokens with
  | _, .fault f :: _ => throw f
  | .firstDocument, .directive _ :: _ => document s
  | .firstDocument, .documentStart :: _ => document s
  | .firstDocument, .streamEnd :: _ => document s
  | .firstDocument, ts =>
    return (.documentStart, ⟨.node :: .documentEnd :: s.expected, defaultHandles, ts⟩)
  | .document, _ => document s
  | .documentContent, .directive _ :: _ => return (empty, s)
  | .documentContent, .documentStart :: _ => return (empty, s)
  | .documentContent, .documentEnd :: _ => return (empty, s)
  | .documentContent, .streamEnd :: _ => return (empty, s)
  | .documentContent, _ => node true false s
  | .documentEnd, .documentEnd :: ts => return (.documentEnd, ⟨[.document], s.handles, ts⟩)
  | .documentEnd, ts => return (.documentEnd, ⟨[.document], s.handles, ts⟩)
  | .node, _ => node true false s
  | .blockEntry, .blockEntry :: ts =>
    nodeUnless [.blockEntry, .blockEnd] true false .blockEntry (rest ts)
  | .blockEntry, .blockEnd :: ts => return (.sequenceEnd, rest ts)
  | .indentlessEntry, .blockEntry :: ts =>
    nodeUnless [.blockEntry, .key, .value, .blockEnd] true false .indentlessEntry (rest ts)
  | .indentlessEntry, _ => return (.sequenceEnd, s)
  | .blockKey, .key :: ts => nodeUnless [.key, .value, .blockEnd] true true .blockValue (rest ts)
  | .blockKey, .blockEnd :: ts => return (.mappingEnd, rest ts)
  | .blockValue, .value :: ts => nodeUnless [.key, .value, .blockEnd] true true .blockKey (rest ts)
  | .blockValue, _ => return (empty, { s with expected := .blockKey :: s.expected })
  | .flowEntry first, ts =>
    let ts ← match first, ts with
      | true, ts => pure ts
      | false, .flowEntry :: ts => pure ts
      | false, .flowSequenceEnd :: _ => pure ts
      | false, _ => throw .malformed
    match ts with
    | .fault f :: _ => throw f
    | .flowSequenceEnd :: ts => return (.sequenceEnd, rest ts)
    | .key :: ts =>
      return (.mappingStart none .map,
        ⟨.pairKey :: .flowEntry false :: s.expected, s.handles, ts⟩)
    | _ => node false false { rest ts with expected := .flowEntry false :: s.expected }
  | .pairKey, ts =>
    nodeUnless [.value, .flowEntry, .flowSequenceEnd] false false .pairValue (rest ts)
  | .pairValue, .value :: ts =>
    nodeUnless [.flowEntry, .flowSequenceEnd] false false .pairEnd (rest ts)
  | .pairValue, _ => return (empty, { s with expected := .pairEnd :: s.expected })
  | .pairEnd, _ => return (.mappingEnd, s)
  | .flowKey first, ts =>
    let ts ← match first, ts with
      | true, ts => pure ts
      | false, .flowEntry :: ts => pure ts
      | false, .flowMappingEnd :: _ => pure ts
      | false, _ => throw .malformed
    match ts with
    | .fault f :: _ => throw f
    | .flowMappingEnd :: ts => return (.mappingEnd, rest ts)
    | .key :: ts =>
      nodeUnless [.value, .flowEntry, .flowMappingEnd] false false .flowValue (rest ts)
    | _ => node false false { rest ts with expected := .noValue :: s.expected }
  | .flowValue, .value :: ts =>
    nodeUnless [.flowEntry, .flowMappingEnd] false false (.flowKey false) (rest ts)
  | .flowValue, _ => return (empty, { s with expected := .flowKey false :: s.expected })
  | .noValue, _ => return (empty, { s with expected := .flowKey false :: s.expected })
  | _, _ => throw .malformed

/-- Reads events up to the end of the text or to a fault; `read` holds those before, latest first. -/
def run : Nat → State → List Event → List Event
  | 0, _, read => (.fault .malformed :: read).reverse
  | n + 1, s, read =>
    match s.expected with
    | [] => read.reverse
    | e :: expected =>
      match next e { s with expected := expected } with
      | .ok (event, s) => run n s (event :: read)
      | .error f => (.fault f :: read).reverse

/-- The events of a list of tokens. At most four events come with a token. -/
def ofTokens (ts : List Token) : List Event :=
  run (4 * ts.length + 8) ⟨[.firstDocument], defaultHandles, ts⟩ []

end Event

end Layering.Yaml
