import Extraction.Cost
import Extraction.Graph.Error
import Extraction.Graph.OpTable
import Extraction.OrderedMap

/-! Graphs under construction. A draft keeps its nodes in the order in which they came in, and for each
class the next index that was never used there. Every node it holds was accepted: it lies in the class
that its identity names, costs a finite amount that is not negative, and applies a known operator. -/
namespace Extraction
open Std

variable {α : Type} [Cost α]

/-- What holds of a node that was let into a draft. -/
structure Accepted (ops : OpTable) (next : TreeMap ClassId UInt32) (id : NodeId) (node : Node α) :
    Prop where
  owner : id.owner = node.eclass
  finite : Cost.isFinite node.cost = true
  nonnegative : ¬ node.cost < 0
  known : (ops.name? node.op).isSome
  indexed : id.index < next.getD id.owner 0

structure Draft (α : Type) [Cost α] where
  nodes : OrderedMap NodeId (Node α)
  roots : List ClassId
  ops : OpTable
  nextIndex : TreeMap ClassId UInt32
  accepted : ∀ e ∈ nodes.toList, Accepted ops nextIndex e.1 e.2

theorem Accepted.of_insert_op {ops : OpTable} {next : TreeMap ClassId UInt32} {id : NodeId}
    {node : Node α} (name : String) (h : Accepted ops next id node) :
    Accepted (ops.insert name) next id node where
  owner := h.owner
  finite := h.finite
  nonnegative := h.nonnegative
  known := by
    obtain ⟨n, hn⟩ := Option.isSome_iff_exists.1 h.known
    rw [OpTable.name?_insert name hn]
    rfl
  indexed := h.indexed

/-- Indices up to `after` are used in the class `c`. -/
def useIndex (next : TreeMap ClassId UInt32) (c : ClassId) (after : UInt32) :
    TreeMap ClassId UInt32 :=
  next.insert c (max (next.getD c 0) after)

theorem getD_useIndex (next : TreeMap ClassId UInt32) (c d : ClassId) (after : UInt32) :
    (useIndex next c after).getD d 0 = if c = d then max (next.getD c 0) after else next.getD d 0 := by
  rw [useIndex, TreeMap.getD_insert]
  simp only [LawfulEqCmp.compare_eq_iff_eq]

theorem lt_max_left {a b : UInt32} (c : UInt32) (h : a < b) : a < max b c := by
  rw [UInt32.lt_iff_toNat_lt] at *
  change a.toNat < (if b ≤ c then c else b).toNat
  split
  · rename_i le
    rw [UInt32.le_iff_toNat_le] at le
    omega
  · exact h

theorem lt_max_right {a c : UInt32} (b : UInt32) (h : a < c) : a < max b c := by
  rw [UInt32.lt_iff_toNat_lt] at *
  change a.toNat < (if b ≤ c then c else b).toNat
  split
  · exact h
  · rename_i le
    rw [UInt32.le_iff_toNat_le] at le
    omega

theorem lt_succ_of_ne_last {i : UInt32} (h : i ≠ 0xffffffff) : i < i + 1 := by
  have : i.toNat ≠ 0xffffffff := fun same => h (UInt32.toNat_inj.1 same)
  have := i.toNat_lt
  rw [UInt32.lt_iff_toNat_lt, UInt32.toNat_add]
  simp only [UInt32.reduceToNat]
  omega

theorem Accepted.of_useIndex {ops : OpTable} {next : TreeMap ClassId UInt32} {id : NodeId}
    {node : Node α} (c : ClassId) (after : UInt32) (h : Accepted ops next id node) :
    Accepted ops (useIndex next c after) id node where
  owner := h.owner
  finite := h.finite
  nonnegative := h.nonnegative
  known := h.known
  indexed := by
    rw [getD_useIndex]
    split
    · rename_i same
      rw [same]
      exact lt_max_left after h.indexed
    · exact h.indexed

namespace Draft

def empty : Draft α where
  nodes := ∅
  roots := []
  ops := ∅
  nextIndex := ∅
  accepted := by
    intro e he
    cases he

instance : EmptyCollection (Draft α) := ⟨empty⟩
instance : Inhabited (Draft α) := ⟨empty⟩

/-- A draft without nodes whose operators are numbered by `ops`. -/
def withOps (ops : OpTable) : Draft α where
  nodes := ∅
  roots := []
  ops := ops
  nextIndex := ∅
  accepted := by
    intro e he
    cases he

def node? (d : Draft α) (id : NodeId) : Option (Node α) := d.nodes.get? id

def addOp (d : Draft α) (name : String) : Draft α :=
  { d with
    ops := d.ops.insert name
    accepted := fun e he => (d.accepted e he).of_insert_op name }

/-- The position of an operator, which comes in at the end unless it is there. -/
def intern (d : Draft α) (name : String) : OpId × Draft α :=
  ((d.ops.intern name).1, d.addOp name)

def addRoot (d : Draft α) (c : ClassId) : Draft α := { d with roots := d.roots ++ [c] }

def freshIndex (d : Draft α) (c : ClassId) : UInt32 := d.nextIndex.getD c 0

def append (d : Draft α) (id : NodeId) (node : Node α) (owner : id.owner = node.eclass)
    (finite : Cost.isFinite node.cost = true) (nonnegative : ¬ node.cost < 0)
    (last : id.index ≠ 0xffffffff) (known : (d.ops.name? node.op).isSome)
    (fresh : id ∉ d.nodes.keys) : Draft α :=
  { d with
    nodes := d.nodes.insert id node
    nextIndex := useIndex d.nextIndex id.owner (id.index + 1)
    accepted := by
      intro e he
      rw [OrderedMap.toList_insert_of_notMem node fresh, List.mem_append, List.mem_singleton] at he
      rcases he with old | rfl
      · exact (d.accepted e old).of_useIndex _ _
      · refine ⟨owner, finite, nonnegative, known, ?_⟩
        rw [getD_useIndex, if_pos rfl]
        exact lt_max_right _ (lt_succ_of_ne_last last) }

/-- Lets a node in, or says why not. A refused node changes nothing. -/
def addNode (d : Draft α) (id : NodeId) (node : Node α) : Except (GraphError α) (Draft α) :=
  if Cost.isNaN node.cost then .error (.nanCost id)
  else if owner : id.owner = node.eclass then
    if finite : Cost.isFinite node.cost = true then
      if negative : node.cost < 0 then .error (.negativeCost id node.cost)
      else if last : id.index = 0xffffffff then .error (.indexOutOfRange id)
      else if known : (d.ops.name? node.op).isSome then
        if stored : id ∈ d.nodes.keys then .error (.duplicateNode id)
        else .ok (d.append id node owner finite negative last known stored)
      else .error (.unknownOp id node.op)
    else .error (.nonFiniteCost id node.cost)
  else .error (.classMismatch id node.eclass)

/-- Lets a node in under the next index of its class, with its operator given by name. The second part
is the draft afterwards: the name stays in the table even if the node is refused, unless the cost is no
number. -/
def push (d : Draft α) (c : ClassId) (op : String) (children : List ClassId) (cost : α) :
    Except (GraphError α) NodeId × Draft α :=
  let id : NodeId := ⟨c, d.freshIndex c⟩
  if Cost.isNaN cost then (.error (.nanCost id), d)
  else
    let (op, d) := d.intern op
    match d.addNode id ⟨op, children, c, cost⟩ with
    | .ok d => (.ok id, d)
    | .error e => (.error e, d)

def filterNodes (p : NodeId → Node α → Bool) (d : Draft α) : Draft α :=
  { d with
    nodes := d.nodes.filter p
    accepted := fun e he => d.accepted e (OrderedMap.mem_filter.1 he).1 }

def removeNodes (d : Draft α) (doomed : List NodeId) : Draft α :=
  d.filterNodes fun id _ => !doomed.contains id

/-- The classes that have a node, in the order of their first nodes. -/
def classes (d : Draft α) : List ClassId := (d.nodes.values.map Node.eclass).eraseDups

def membersOf (d : Draft α) (c : ClassId) : List NodeId :=
  (d.nodes.filter fun _ node => node.eclass = c).keys

def groups (d : Draft α) : List (ClassId × List NodeId) :=
  d.classes.map fun c => (c, d.membersOf c)

/-- Whether two drafts hold the same: the order of nodes and of operator names aside. -/
def sameAs [BEq α] (d e : Draft α) : Bool :=
  let sameNode (m n : Node α) : Bool :=
    m.op = n.op && m.children = n.children && m.eclass = n.eclass && m.cost == n.cost
  d.nodes.size = e.nodes.size &&
    (d.nodes.toList.all fun entry => (e.node? entry.1).any (sameNode entry.2)) &&
    d.roots = e.roots && d.ops.sameNames e.ops && d.nextIndex.toList == e.nextIndex.toList

end Draft

end Extraction
