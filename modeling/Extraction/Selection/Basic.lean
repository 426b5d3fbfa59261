import Extraction.Cost
import Extraction.Id
import Extraction.OrderedMap

/-! Selections: a node for each class, and what was learnt about the cost of nodes on the way. Choices
stand in the order in which their classes were first chosen for. A node that was looked at without being
feasible has an entry without a cost. -/
namespace Extraction
open Std

structure Selection (α : Type) where
  choices : OrderedMap ClassId NodeId
  candidates : TreeMap NodeId (Option α)

namespace Selection
variable {α : Type}

def empty : Selection α := ⟨∅, ∅⟩

instance : EmptyCollection (Selection α) := ⟨empty⟩
instance : Inhabited (Selection α) := ⟨empty⟩

def choose (s : Selection α) (c : ClassId) (id : NodeId) : Selection α :=
  { s with choices := s.choices.insert c id }

def choice? (s : Selection α) (c : ClassId) : Option NodeId := s.choices.get? c

theorem choice?_choose (s : Selection α) (c d : ClassId) (id : NodeId) :
    (s.choose c id).choice? d = if d = c then some id else s.choice? d :=
  OrderedMap.get?_insert s.choices c d id

variable [Cost α]

/-- The lesser of two costs that may be missing; of equal ones the first. -/
def lesser (best : Option α) : Option α → Option α
  | none => best
  | some total => if Cost.improves total best then some total else best

/-- The candidate costs with one more total for a node; only the least is kept. -/
def recordTotal (candidates : TreeMap NodeId (Option α)) (id : NodeId) (total : Option α) :
    TreeMap NodeId (Option α) :=
  candidates.insert id (lesser (candidates.getD id none) total)

def record (s : Selection α) (id : NodeId) (total : Option α) : Selection α :=
  { s with candidates := recordTotal s.candidates id total }

/-- The least total recorded for a node of the class. -/
def leastTotal? (s : Selection α) (c : ClassId) : Option α :=
  (s.candidates.toList.filter fun e => e.1.owner = c).foldl (fun best e => lesser best e.2) none

/-- Whether a total is missing or exceeds `bound` times the least. -/
def exceeds (bound least : α) : Option α → Bool
  | none => true
  | some total => least * bound < total

/-- The recorded nodes, in ascending order, that are infeasible or too costly beside the best of their
class. A class without a feasible node is left alone. -/
def zeroNodes (s : Selection α) (bound : α) : List NodeId :=
  (s.candidates.toList.filter fun e =>
    (s.leastTotal? e.1.owner).any fun least => exceeds bound least e.2).map Prod.fst

end Selection

end Extraction
