import Extraction.Cost
import Extraction.Id
import Std.Data.TreeMap

/-! The best known realization of each class. Relaxation evaluates nodes against this table and puts a
candidate in where it is better than what its class had. -/
namespace Extraction
open Std

/-- A realization of a class: the node chosen, what it costs in all, and what the cost is made of. -/
structure Entry (α β : Type) where
  choice : NodeId
  total : α
  detail : β

abbrev Table (α β : Type) := TreeMap ClassId (Entry α β)

/-- What comes of evaluating a node: a child class has no realization yet, or the node is no use to its
class, or it realizes its class. -/
inductive Evaluation (α β : Type) where
  | blocked
  | rejected
  | candidate (entry : Entry α β)

namespace Table
variable {α β : Type}

def total? (table : Table α β) (c : ClassId) : Option α := (table.get? c).map Entry.total

def choice? (table : Table α β) (c : ClassId) : Option NodeId := (table.get? c).map Entry.choice

end Table

end Extraction
