import Layering.Yaml.Cell
import Layering.Yaml.Scalar

/-!
# The value of a document

The nodes of a document become contents one by one, level by level: a collection is empty first, and waits
in a queue until those before it are complete. What is found faulty first is the fault of the document.

A mapping may take over the entries of other mappings; its own entries win over those, and of several
mappings the first wins. Taking over changes the mapping itself, so that it happens once.

In the end contents become values. A node that is part of itself has no finite value; it is cut off at a
depth beyond all use.
-/

namespace Layering.Yaml

/-- What a node holds; its parts are numbers of nodes. -/
inductive Content where
  | scalar (s : Scalar)
  | list (items : List Nat)
  /-- A list of pairs of a key and a value. -/
  | pairs (items : List (Nat × Nat))
  | map (entries : List (Scalar × Nat))
  | set (members : List Scalar)

/-- The contents found so far. -/
structure Contents where
  cells : Array Cell
  /-- What the nodes hold that have been begun. -/
  made : Array (Option Content)
  /-- The collections that have been begun, in that order. -/
  queue : Array Nat := #[]

namespace Contents

/-- The node with a number. -/
def cell (c : Contents) (n : Nat) : Cell := c.cells.getD n (.scalar .null "")

/-- The pairs of a mapping. -/
def pairs (c : Contents) (n : Nat) : List (Nat × Nat) :=
  match c.cell n with
  | .mapping _ ps => ps
  | _ => []

/-- Puts other pairs into a mapping. -/
def setPairs (c : Contents) (n : Nat) (ps : List (Nat × Nat)) : Contents :=
  { c with cells := c.cells.modify n fun
      | .mapping t _ => .mapping t ps
      | other => other }

/-- Changes the tag of a node. -/
def setTag (c : Contents) (n : Nat) (t : Tag) : Contents :=
  { c with cells := c.cells.modify n (Cell.withTag t) }

/-- Writes down what a node holds. -/
def put (c : Contents) (n : Nat) (x : Content) : Contents :=
  { c with made := c.made.setIfInBounds n (some x) }

/-- Begins a collection. -/
def start (c : Contents) (n : Nat) (x : Content) : Contents :=
  let c := c.put n x
  { c with queue := c.queue.push n }

/-! ## Entries taken over -/

/-- The pairs with their keys that stand for a value turned into texts. -/
def settleKeys (c : Contents) (n : Nat) : Contents :=
  (c.pairs n).foldl (fun c (k, _) => if (c.cell k).tag = .value then c.setTag k .str else c) c

/-- Takes over what a mapping asks for; `merged` are the pairs taken over so far. They go in front. Each
step takes away a pair that asks for others, and `fuel` is more than there are of these. -/
def takeOver : (fuel : Nat) → (n : Nat) → (merged : List (Nat × Nat)) → Contents →
    Except Fault Contents
  | 0, _, _, _ => .error .malformed
  | fuel + 1, n, merged, c =>
    let ps := c.pairs n
    let asks := fun (p : Nat × Nat) => (c.cell p.1).tag == .merge
    match ps.find? asks with
    | none => .ok ((c.setPairs n (merged ++ ps)).settleKeys n)
    | some (_, source) => do
      let c := c.setPairs n (ps.eraseP asks)
      match c.cell source with
      | .mapping _ _ =>
        let c ← takeOver fuel source [] c
        takeOver fuel n (merged ++ c.pairs source) c
      | .sequence _ items =>
        let (c, lists) ← items.foldlM (fun (c, lists) item => do
          match c.cell item with
          | .mapping _ _ =>
            let c ← takeOver fuel item [] c
            return (c, c.pairs item :: lists)
          | _ => throw .malformed) (c, [])
        takeOver fuel n (merged ++ lists.flatten) c
      | .scalar _ _ => throw .malformed

/-! ## Contents of nodes -/

/-- The text of a node that has to be a scalar. A mapping has one under the key that stands for its
value. -/
def text : (fuel : Nat) → Contents → Nat → Except Fault String
  | 0, _, _ => .error .tooDeep
  | fuel + 1, c, n =>
    match c.cell n with
    | .scalar _ s => .ok s
    | .sequence _ _ => .error .malformed
    | .mapping _ ps =>
      match ps.find? fun (k, _) => (c.cell k).tag == .value with
      | some (_, v) => text fuel c v
      | none => .error .malformed

/-- The scalar that a node holds. -/
def readScalar (c : Contents) (n : Nat) (tag : Tag) : Except Fault Scalar := do
  let s ← c.text (c.cells.size + 1) n
  match tag with
  | .null => return .null
  | .bool => return .bool (← readBool s.toList)
  | .int => return .int (← readInt s.toList)
  | .float => return .real (← readFloat (n + 1) s.toList)
  | .binary => return .bytes (← readBytes s.toList)
  | .timestamp => match c.cell n with
    | .scalar _ _ => readTime s.toList
    | _ => throw .noText
  | _ => return .text s

/-- Begins a node, if it has not been begun: a scalar is read, a collection is empty at first. -/
def construct (c : Contents) (n : Nat) : Except Fault Contents :=
  if (c.made.getD n none).isSome then .ok c
  else match (c.cell n).tag with
    | .seq => .ok (c.start n (.list []))
    | .omap | .pairs => .ok (c.start n (.pairs []))
    | .map => .ok (c.start n (.map []))
    | .set => .ok (c.start n (.set []))
    | .merge | .value | .unknown _ => .error .malformed
    | tag => (c.readScalar n tag).map fun s => c.put n (.scalar s)

/-- Begins two nodes. -/
def constructPair (c : Contents) (p : Nat × Nat) : Except Fault Contents := do
  (← c.construct p.1).construct p.2

/-- Begins the nodes of an entry, whose key has to be a scalar. -/
def constructEntry (c : Contents) (p : Nat × Nat) : Except Fault (Scalar × Contents) := do
  let c ← c.construct p.1
  match c.made.getD p.1 none with
  | some (.scalar key) => return (key, ← c.construct p.2)
  | _ => throw .malformed

/-- The entries of a mapping, with those that it takes over. -/
def entries (c : Contents) (n : Nat) : Except Fault (List (Scalar × Nat) × Contents) := do
  match c.cell n with
  | .mapping _ _ =>
    let c ← c.takeOver (c.cells.size + 1) n []
    (c.pairs n).foldlM (fun (es, c) p => do
      let (key, c) ← c.constructEntry p
      return (Entries.insert key p.2 es, c)) ([], c)
  | _ => throw .malformed

/-- The pair of a mapping with one entry. -/
def onlyPair (c : Contents) (n : Nat) : Except Fault (Nat × Nat) :=
  match c.cell n with
  | .mapping _ [p] => .ok p
  | _ => .error .malformed

/-- Completes a collection: begins its parts, and writes them down. -/
def complete (c : Contents) (n : Nat) : Except Fault Contents := do
  match (c.cell n).tag with
  | .seq => match c.cell n with
    | .sequence _ items => return (← items.foldlM construct c).put n (.list items)
    | _ => throw .malformed
  | .omap | .pairs => match c.cell n with
    | .sequence _ items =>
      let (ps, c) ← items.foldlM (fun (ps, c) item => do
        let p ← c.onlyPair item
        return (p :: ps, ← c.constructPair p)) ([], c)
      return c.put n (.pairs ps.reverse)
    | _ => throw .malformed
  | .set =>
    let (es, c) ← c.entries n
    return c.put n (.set (es.map (·.1)))
  | _ =>
    let (es, c) ← c.entries n
    return c.put n (.map es)

/-- Completes the collections of the queue from a place on. A node comes into the queue once, so `fuel` is
the number of nodes. -/
def completeFrom : (fuel : Nat) → (place : Nat) → Contents → Except Fault Contents
  | 0, _, c => .ok c
  | fuel + 1, place, c =>
    match c.queue[place]? with
    | none => .ok c
    | some n => match c.complete n with
      | .ok c => completeFrom fuel (place + 1) c
      | .error f => .error f

end Contents

/-! ## Values of contents -/

/-- The value of a content, given the values of all nodes. -/
def Content.value (values : Array Value) : Content → Value
  | .scalar s => .scalar s
  | .list items => .list (items.map fun n => values.getD n .null)
  | .pairs items =>
    .list (items.map fun (k, v) => .list [values.getD k .null, values.getD v .null])
  | .map entries => .map (entries.map fun (k, n) => (k, values.getD n .null))
  | .set members => .set members

/-- The depth at which a node that is part of itself is cut off. -/
def unfoldingDepth : Nat := 1000

/-- The values of nodes from the values of their parts, the nodes being taken in the order in which they
ended. -/
def unfold (made : Array (Option Content)) (ended : Array Nat) (values : Array Value) : Array Value :=
  ended.foldl (fun values n => match made.getD n none with
    | some x => values.setIfInBounds n (x.value values)
    | none => values) values

/-- The values of nodes, as deep as `rounds` says where a node is part of itself. -/
def unfoldings (made : Array (Option Content)) (ended : Array Nat) :
    (rounds : Nat) → Array Value → Array Value
  | 0, values => values
  | rounds + 1, values => unfoldings made ended rounds (unfold made ended values)

/-- The value of a node. -/
def Node.value (node : Node) : Except Fault Value := do
  let (root, t) := node.number [] {}
  let c : Contents := { cells := t.cells, made := Array.replicate t.cells.size none }
  let c ← c.construct root
  let c ← c.completeFrom t.cells.size 0
  let values := unfoldings c.made t.ended (if t.loops then unfoldingDepth else 1)
    (Array.replicate t.cells.size .null)
  return values.getD root .null

end Layering.Yaml
