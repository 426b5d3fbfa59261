import Extraction.Decimal.Layout
import Extraction.Graph.Node
import Extraction.Text.Quoted

/-! What can be wrong with a graph and how it is said. -/
namespace Extraction

inductive GraphError (α : Type) where
  | duplicateNode (node : NodeId)
  | classMismatch (node : NodeId) (eclass : ClassId)
  | danglingChild (node : NodeId) (child : ClassId)
  | danglingRoot (root : ClassId)
  | negativeCost (node : NodeId) (cost : α)
  | nanCost (node : NodeId)
  | nonFiniteCost (node : NodeId) (cost : α)
  | indexOutOfRange (node : NodeId)
  | unknownOp (node : NodeId) (op : OpId)
  | duplicateOp (name : String)
  deriving DecidableEq, Repr

def GraphError.message : GraphError Float → String
  | duplicateNode node => "duplicate node with id " ++ node.text
  | classMismatch node eclass =>
    "node " ++ node.text ++ " is stored under the wrong class (claims " ++ eclass.text ++ ")"
  | danglingChild node child =>
    "node " ++ node.text ++ " references class " ++ child.text ++ ", which has no nodes"
  | danglingRoot root => "root class " ++ root.text ++ " has no nodes"
  | negativeCost node cost =>
    "node " ++ node.text ++ " has negative cost " ++ Layout.plain.render cost
  | nanCost node => "node " ++ node.text ++ " has a NaN cost"
  | nonFiniteCost node cost =>
    "node " ++ node.text ++ " has non-finite cost " ++ Layout.plain.render cost
  | indexOutOfRange node =>
    "node " ++ node.text ++ " has the largest local index, leaving none to allocate"
  | unknownOp node op =>
    "node " ++ node.text ++ " uses operator " ++ op.text ++ ", which is not in the op table"
  | duplicateOp name => "operator " ++ Text.quoted name ++ " appears twice in the op table"

end Extraction
