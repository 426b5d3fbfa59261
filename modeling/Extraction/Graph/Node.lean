import Extraction.Id
import Std.Data.TreeSet

/-! Nodes: an operator applied to classes, at a cost. -/
namespace Extraction

structure Node (α : Type) where
  op : OpId
  children : List ClassId
  eclass : ClassId
  cost : α
  deriving DecidableEq, Repr, Inhabited

/-- The distinct classes of a list in ascending order. -/
def distinctClasses (classes : List ClassId) : List ClassId :=
  (Std.TreeSet.ofList classes).toList

@[simp] theorem mem_distinctClasses {classes : List ClassId} {c : ClassId} :
    c ∈ distinctClasses classes ↔ c ∈ classes := by
  rw [distinctClasses, Std.TreeSet.mem_toList, Std.TreeSet.mem_ofList, List.contains_iff_mem]

theorem nodup_distinctClasses (classes : List ClassId) : (distinctClasses classes).Nodup := by
  have distinct : (distinctClasses classes).Pairwise fun c d => ¬ compare c d = .eq :=
    Std.TreeSet.distinct_toList
  apply distinct.imp
  rintro c d apart rfl
  exact apart Std.ReflCmp.compare_self

/-- Lists of the same classes have the same distinct classes in the same order. -/
theorem distinctClasses_congr {classes classes' : List ClassId}
    (same : ∀ c, c ∈ classes ↔ c ∈ classes') : distinctClasses classes = distinctClasses classes' := by
  apply Std.TreeSet.Equiv.toList_eq
  apply Std.TreeSet.Equiv.of_forall_mem_iff
  intro c
  rw [Std.TreeSet.mem_ofList, Std.TreeSet.mem_ofList, List.contains_iff_mem, List.contains_iff_mem, same]

/-- The classes of a list in ascending order, each with the number of times it occurs. Two lists have
the same signature if one is a rearrangement of the other. -/
def signature (classes : List ClassId) : List (ClassId × Nat) :=
  (distinctClasses classes).map fun c => (c, classes.count c)

namespace Node
variable {α : Type}

def isLeaf (n : Node α) : Bool := n.children.isEmpty

def distinctChildren (n : Node α) : List ClassId := distinctClasses n.children

end Node

end Extraction
