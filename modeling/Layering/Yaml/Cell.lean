import Layering.Yaml.Node

/-!
# Numbered nodes

The nodes of a document in a table, in the order in which they begin. A node refers to its parts by their
numbers, and an alias has the number of the node with its anchor. So a node can be part of several others,
and even of itself.
-/

namespace Layering.Yaml

/-- A node that refers to its parts by their numbers. -/
inductive Cell where
  | scalar (tag : Tag) (text : String)
  | sequence (tag : Tag) (items : List Nat)
  | mapping (tag : Tag) (pairs : List (Nat × Nat))
deriving DecidableEq, Repr

namespace Cell

/-- The tag of a node. -/
def tag : Cell → Tag
  | scalar t _ => t
  | sequence t _ => t
  | mapping t _ => t

/-- The node with another tag. -/
def withTag (t : Tag) : Cell → Cell
  | scalar _ text => scalar t text
  | sequence _ items => sequence t items
  | mapping _ pairs => mapping t pairs

end Cell

/-- Nodes that are being numbered. -/
structure Numbering where
  cells : Array Cell := #[]
  /-- The numbers of the nodes with anchors. -/
  anchors : List (String × Nat) := []
  /-- The numbers of the nodes that have ended, in that order. -/
  ended : Array Nat := #[]
  /-- Whether a node is part of itself. -/
  loops : Bool := false

namespace Numbering

/-- Gives the next number to a node. -/
def start (t : Numbering) (anchor : Option String) (c : Cell) : Nat × Numbering :=
  let n := t.cells.size
  (n, { t with
    cells := t.cells.push c
    anchors := match anchor with
      | some name => (name, n) :: t.anchors
      | none => t.anchors })

/-- Ends a node, whose parts are known now. -/
def finish (t : Numbering) (n : Nat) (c : Cell) : Numbering :=
  { t with cells := t.cells.setIfInBounds n c, ended := t.ended.push n }

end Numbering

mutual

/-- Numbers a node with all that is in it. The nodes `above` it have not ended. -/
def Node.number (above : List Nat) (t : Numbering) : Node → Nat × Numbering
  | .alias name =>
    let n := (t.anchors.lookup name).getD 0
    (n, { t with loops := t.loops || above.contains n })
  | .scalar a tag text =>
    let (n, t) := t.start a (.scalar tag text)
    (n, t.finish n (.scalar tag text))
  | .sequence a tag items =>
    let (n, t) := t.start a (.sequence tag [])
    let (ns, t) := Node.numberItems (n :: above) t [] items
    (n, t.finish n (.sequence tag ns))
  | .mapping a tag pairs =>
    let (n, t) := t.start a (.mapping tag [])
    let (ns, t) := Node.numberPairs (n :: above) t [] pairs
    (n, t.finish n (.mapping tag ns))

/-- Numbers the items of a sequence; `read` holds the numbers of those before, latest first. -/
def Node.numberItems (above : List Nat) (t : Numbering) (read : List Nat) :
    List Node → List Nat × Numbering
  | [] => (read.reverse, t)
  | x :: xs =>
    let (n, t) := x.number above t
    Node.numberItems above t (n :: read) xs

/-- Numbers the keys and values of a mapping; `read` holds the numbers of those before, latest first. -/
def Node.numberPairs (above : List Nat) (t : Numbering) (read : List (Nat × Nat)) :
    List (Node × Node) → List (Nat × Nat) × Numbering
  | [] => (read.reverse, t)
  | (k, v) :: ps =>
    let (m, t) := k.number above t
    let (n, t) := v.number above t
    Node.numberPairs above t ((m, n) :: read) ps

end

end Layering.Yaml
