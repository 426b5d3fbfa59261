import Extraction.Graph.Draft

/-! Redundant nodes. Two nodes of one class whose children form the same multiset of classes stand for
one another; of each such group the first in storage order is kept. Nodes keep their identities. -/
namespace Extraction

variable {α : Type} [Cost α]

/-- What makes nodes interchangeable: their class and the multiset of their children. -/
def Node.kind (n : Node α) : ClassId × List (ClassId × Nat) := (n.eclass, signature n.children)

/-- The nodes whose kind occurs in `seen` or earlier in the list. -/
def repeated (seen : List (ClassId × List (ClassId × Nat))) :
    List (NodeId × Node α) → List NodeId
  | [] => []
  | (id, node) :: rest =>
    let kind := node.kind
    if seen.contains kind then id :: repeated seen rest else repeated (kind :: seen) rest

/-- A node that a class lists and that the draft does not hold. -/
structure UnknownNode where
  id : NodeId
  deriving DecidableEq, Repr

def UnknownNode.message (e : UnknownNode) : String := "no node with id " ++ e.id.text

namespace Draft

/-- The nodes of a draft that come after another of their kind. -/
def redundant (d : Draft α) : List NodeId := repeated [] d.nodes.toList

def dropRedundant (d : Draft α) : Draft α := d.removeNodes d.redundant

/-- Groups nodes by their signatures, in the order in which they are listed. -/
def bySignature (d : Draft α) (ids : List NodeId) :
    Except UnknownNode (OrderedMap (List (ClassId × Nat)) (List NodeId)) :=
  ids.foldlM (fun groups id =>
    match d.node? id with
    | none => .error ⟨id⟩
    | some node => .ok (groups.push (signature node.children) id)) ∅

/-- All nodes of a class but the first of each signature. -/
def surplus (d : Draft α) (ids : List NodeId) : Except UnknownNode (List NodeId) :=
  if ids.length < 2 then .ok []
  else (d.bySignature ids).map fun groups => groups.values.flatMap (List.drop 1)

/-- Drops the redundant nodes class by class and says how many there were. Fails if a class lists a node
that the draft does not hold. -/
def removeRedundant (d : Draft α) : Except UnknownNode (Nat × Draft α) := do
  let doomed ← d.groups.mapM fun group => d.surplus group.2
  let kept := d.removeNodes doomed.flatten
  return (d.nodes.size - kept.nodes.size, kept)

end Draft

end Extraction
