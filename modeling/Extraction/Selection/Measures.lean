import Extraction.Selection.Walk

/-! What a selection costs. The tree cost pays a class anew at each use and the dag cost once; the depth
counts the nodes on a longest path from the roots down. -/
namespace Extraction
open Std

variable {α : Type} [Cost α]

/-- A value for each visited class, computed from its node and the values of the node's children. -/
def tabulate {β : Type} (value : Node α → List β → β) (visits : List (Visit α)) :
    TreeMap ClassId β :=
  visits.foldl (fun table v =>
    table.insert v.eclass (value v.node (v.node.children.filterMap fun c => table.get? c))) ∅

/-- The cost of a node above children that cost `below`. -/
def Node.treeCost (node : Node α) (below : List α) : α := node.cost + Cost.sum below

def greatest (numbers : List Nat) : Nat := numbers.foldl max 0

namespace Selection

def treeCost (s : Selection α) (g : EGraph α) (roots : List ClassId) : Except CheckError α := do
  let visits ← (s.postOrder g roots).result
  let table := tabulate Node.treeCost visits
  return Cost.sum (roots.filterMap fun c => table.get? c)

def depth (s : Selection α) (g : EGraph α) (roots : List ClassId) : Except CheckError Nat := do
  let visits ← (s.postOrder g roots).result
  let table := tabulate (fun _ below => 1 + greatest below) visits
  return greatest (roots.filterMap fun c => table.get? c)

def dagCost (s : Selection α) (g : EGraph α) (roots : List ClassId) : Except CheckError α := do
  let visits ← (s.survey g roots).result
  return Cost.sum (visits.map fun v => v.node.cost)

def activeNodes (s : Selection α) (g : EGraph α) (roots : List ClassId) :
    Except CheckError (List NodeId) := do
  let visits ← (s.survey g roots).result
  return (visits.map Visit.id).mergeSort NodeId.le

/-- What is wrong with one choice by itself. -/
def choiceFault? (g : EGraph α) (c : ClassId) (id : NodeId) : Option CheckError :=
  match g.node? id with
  | none => some (.unknownNode c id)
  | some node => if node.eclass = c then none else some (.classMismatch c id node.eclass)

/-- Whether the selection is complete, well placed and free of cycles below the roots of the graph. -/
def check (s : Selection α) (g : EGraph α) : Except CheckError Unit :=
  if g.roots.isEmpty then .error .noRoots
  else
    match g.roots.find? fun c => (s.choice? c).isNone with
    | some root => .error (.missingRoot root)
    | none =>
      match s.choices.toList.findSome? fun e => choiceFault? g e.1 e.2 with
      | some fault => .error fault
      | none => (s.postOrder g g.roots).result.map fun _ => ()

end Selection

end Extraction
