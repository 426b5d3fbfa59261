import Extraction.Graph.Node
import Extraction.Relaxation.Table

/-! Bills. A bill lists the classes that a realization uses, each at the cost that it had when the bill
was drawn up, so a class that is reached on several ways is paid once. -/
namespace Extraction
open Std

variable {α : Type} [Cost α]

abbrev Bill (α : Type) := TreeMap ClassId α

namespace Bill

/-- The sum of the bill. Nothing fixes the order of this sum: a bill kept in a hash table would be added up in
whatever order the table has its classes, and here it is in ascending order. Exact costs come to the same total
either way; doubles are rounded at each addition, so the two totals may differ in the last bit. -/
def total (bill : Bill α) : α := Cost.sum bill.values

def addMissing (bill other : Bill α) : Bill α :=
  other.foldl (fun bill c cost => bill.insertIfNew c cost) bill

/-- The largest bill, and of equally large ones the last. -/
def largest (first : Bill α) (others : List (Bill α)) : Bill α :=
  others.foldl (fun best bill => if best.size ≤ bill.size then bill else best) first

/-- One bill for all. Where bills differ, the largest counts, and else the earliest. -/
def merge : List (Bill α) → Bill α
  | [] => ∅
  | first :: others => (first :: others).foldl addMissing (largest first others)

end Bill

/-- The realization of a class by a node above the bills of its children. -/
def billed (id : NodeId) (node : Node α) (below : Bill α) : Entry α (Bill α) :=
  let bill := below.insert node.eclass node.cost
  ⟨id, Bill.total bill, bill⟩

/-- Whether a node above a single child is no better than what its class has, so that its bill need not
be drawn up. -/
def hopeless (table : Table α (Bill α)) (node : Node α) : List (Entry α (Bill α)) → Bool
  | [child] => !Cost.improves (node.cost + child.total) (table.total? node.eclass)
  | _ => false

/-- Evaluates a node by its bill. A bill that has the class of the node already would close a cycle. -/
def billEvaluation (prune : Bool) (table : Table α (Bill α)) (id : NodeId) (node : Node α) :
    Evaluation α (Bill α) :=
  if node.isLeaf then .candidate ⟨id, node.cost, TreeMap.empty.insert node.eclass node.cost⟩
  else
    match node.distinctChildren.mapM table.get? with
    | none => .blocked
    | some children =>
      if node.children.contains node.eclass then .rejected
      else if prune && hopeless table node children then .rejected
      else
        let below := Bill.merge (children.map Entry.detail)
        if below.contains node.eclass then .rejected else .candidate (billed id node below)

end Extraction
