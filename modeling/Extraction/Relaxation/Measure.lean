import Extraction.Graph.Node
import Extraction.Relaxation.Table

/-! Measures that a node has once its children have them: the tree cost and the depth. -/
namespace Extraction
open Std

variable {α : Type} [Cost α]

/-- The greater of two costs, the second if neither is. -/
def greater (a b : α) : α := if b < a then a else b

def treeMeasure (node : Node α) (below : List α) : α := below.foldl (· + ·) node.cost

def depthMeasure (_ : Node α) (below : List α) : α := below.foldl greater 0 + 1

/-- Evaluates a node by a measure of its children, repeated ones counted each time. -/
def measureEvaluation (measure : Node α → List α → α) (table : Table α Unit) (id : NodeId)
    (node : Node α) : Evaluation α Unit :=
  match node.children.mapM table.total? with
  | none => .blocked
  | some below => .candidate ⟨id, measure node below, ()⟩

end Extraction
