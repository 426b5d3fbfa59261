import Extraction.Graph.Draft

/-! Sealed graphs. Sealing a draft computes its classes once and makes sure that every class that a node
or the roots refer to has a node; a sealed graph does not change, and reopening it gives the draft back. -/
namespace Extraction

variable {α : Type} [Cost α]

/-- A reference to something that a sealed graph does not hold. -/
inductive LookupError where
  | noNode (id : NodeId)
  | noClass (c : ClassId)
  deriving DecidableEq, Repr

def LookupError.message : LookupError → String
  | noNode id => "No node with id NodeId([" ++ id.owner.text ++ ", " ++ toString id.index.toNat ++ "])"
  | noClass c => "No class with id ClassId(" ++ c.text ++ ")"

structure EGraph (α : Type) [Cost α] where
  draft : Draft α
  classes : List ClassId
  classes_eq : classes = draft.classes
  childrenPresent : ∀ e ∈ draft.nodes.toList, ∀ c ∈ e.2.children, c ∈ classes
  rootsPresent : ∀ r ∈ draft.roots, r ∈ classes

namespace Draft

/-- The first node in storage order with a child outside `classes`, and its first such child. -/
def danglingChild? (d : Draft α) (classes : List ClassId) : Option (NodeId × ClassId) :=
  d.nodes.toList.findSome? fun e =>
    (e.2.children.find? fun c => !classes.contains c).map fun c => (e.1, c)

def danglingRoot? (d : Draft α) (classes : List ClassId) : Option ClassId :=
  d.roots.find? fun c => !classes.contains c

theorem mem_of_danglingChild? {d : Draft α} {classes : List ClassId}
    (h : d.danglingChild? classes = none) :
    ∀ e ∈ d.nodes.toList, ∀ c ∈ e.2.children, c ∈ classes := by
  intro e he c hc
  have none := Option.map_eq_none_iff.1 (List.findSome?_eq_none_iff.1 h e he)
  simpa using List.find?_eq_none.1 none c hc

theorem mem_of_danglingRoot? {d : Draft α} {classes : List ClassId}
    (h : d.danglingRoot? classes = none) : ∀ r ∈ d.roots, r ∈ classes := by
  intro r hr
  simpa using List.find?_eq_none.1 h r hr

/-- Seals a draft, or names the first reference that leads nowhere, children before roots. -/
def toGraph (d : Draft α) : Except (GraphError α) (EGraph α) :=
  let classes := d.classes
  match children : d.danglingChild? classes with
  | some (node, child) => .error (.danglingChild node child)
  | none =>
    match roots : d.danglingRoot? classes with
    | some root => .error (.danglingRoot root)
    | none =>
      .ok ⟨d, classes, rfl, mem_of_danglingChild? children, mem_of_danglingRoot? roots⟩

end Draft

namespace EGraph

def nodes (g : EGraph α) : OrderedMap NodeId (Node α) := g.draft.nodes

def roots (g : EGraph α) : List ClassId := g.draft.roots

def ops (g : EGraph α) : OpTable := g.draft.ops

def reopen (g : EGraph α) : Draft α := g.draft

def node? (g : EGraph α) (id : NodeId) : Option (Node α) := g.nodes.get? id

def hasClass (g : EGraph α) (c : ClassId) : Bool := g.classes.contains c

def classIndex? (g : EGraph α) (c : ClassId) : Option Nat := g.classes.idxOf? c

def membersOf (g : EGraph α) (c : ClassId) : List NodeId := g.draft.membersOf c

def members? (g : EGraph α) (c : ClassId) : Option (List NodeId) :=
  if g.hasClass c then some (g.membersOf c) else none

def classOf? (g : EGraph α) (id : NodeId) : Option ClassId := (g.node? id).map Node.eclass

def opName? (g : EGraph α) (node : Node α) : Option String := g.ops.name? node.op

def node (g : EGraph α) (id : NodeId) : Except LookupError (Node α) :=
  match g.node? id with
  | some node => .ok node
  | none => .error (.noNode id)

def members (g : EGraph α) (c : ClassId) : Except LookupError (List NodeId) :=
  match g.members? c with
  | some ids => .ok ids
  | none => .error (.noClass c)

/-- The nodes that have `c` among their children, in storage order. -/
def parents (g : EGraph α) (c : ClassId) : List NodeId :=
  (g.nodes.filter fun _ node => node.children.contains c).keys

/-- The classes that have parents, in ascending order, each with its parents. -/
def parentIndex (g : EGraph α) : List (ClassId × List NodeId) :=
  (distinctClasses (g.nodes.values.flatMap Node.children)).map fun c => (c, g.parents c)

end EGraph

end Extraction
