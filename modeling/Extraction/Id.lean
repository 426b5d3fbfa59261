import Std.Data.TreeMap

/-! Identities of classes, nodes and operators. Classes and operators are 32-bit words; a node is
named by the class that owns it and a local index, and node identities are ordered by class first. -/
namespace Extraction

/-- The identity of a class of equivalent nodes. -/
structure ClassId where
  value : UInt32
  deriving DecidableEq, Repr, Inhabited

/-- The identity of a node: its class and a local index that tells it from the others there. -/
structure NodeId where
  owner : ClassId
  index : UInt32
  deriving DecidableEq, Repr, Inhabited

/-- A position in a table of operator names. -/
structure OpId where
  value : UInt32
  deriving DecidableEq, Repr, Inhabited

instance : Ord ClassId := ⟨compareOn ClassId.value⟩

instance : Ord NodeId := ⟨compareLex (compareOn NodeId.owner) (compareOn NodeId.index)⟩

instance : Std.TransOrd ClassId := inferInstanceAs (Std.TransCmp (compareOn ClassId.value))

instance : Std.TransOrd NodeId :=
  inferInstanceAs (Std.TransCmp (compareLex (compareOn NodeId.owner) (compareOn NodeId.index)))

instance : Std.LawfulEqOrd ClassId where
  eq_of_compare {a b} h := by
    cases a; cases b
    exact congrArg ClassId.mk (Std.LawfulEqOrd.eq_of_compare h)

instance : Std.LawfulEqOrd NodeId where
  eq_of_compare {a b} h := by
    obtain ⟨owner, index⟩ := a
    obtain ⟨owner', index'⟩ := b
    have both : compare owner owner' = .eq ∧ compare index index' = .eq :=
      Ordering.then_eq_eq.1 h
    rw [Std.LawfulEqOrd.eq_of_compare both.1, Std.LawfulEqOrd.eq_of_compare both.2]

namespace ClassId

def le (a b : ClassId) : Bool := (compare a b).isLE

def text (c : ClassId) : String := toString c.value.toNat

end ClassId

namespace NodeId

def le (a b : NodeId) : Bool := (compare a b).isLE

/-- A node is written as its class, a dot and its index. -/
def text (n : NodeId) : String := n.owner.text ++ "." ++ toString n.index.toNat

end NodeId

def OpId.text (op : OpId) : String := "op" ++ toString op.value.toNat

end Extraction
