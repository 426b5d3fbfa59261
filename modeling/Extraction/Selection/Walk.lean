import Extraction.Graph.Sealed
import Extraction.Selection.Basic

/-! Walks along the chosen nodes. From the roots, each class is entered through the node chosen for it and
its children follow. The walk in post-order takes up a class once its children are done and stops at a
cycle; the survey takes up a class as soon as it is met and does not mind cycles. Both stop at the first
class without a proper choice. -/
namespace Extraction

inductive CheckError where
  | noRoots
  | missingRoot (root : ClassId)
  | unknownNode (eclass : ClassId) (node : NodeId)
  | classMismatch (chooser : ClassId) (node : NodeId) (eclass : ClassId)
  | missingChoice (eclass : ClassId)
  | unknownClass (eclass : ClassId)
  | cycle (path : List ClassId)
  deriving DecidableEq, Repr

def CheckError.message : CheckError → String
  | noRoots => "the e-graph has no root classes"
  | missingRoot root => "root class " ++ root.text ++ " has no choice"
  | unknownNode c node =>
    "class " ++ c.text ++ " chose node " ++ node.text ++ ", which is not in the e-graph"
  | classMismatch chooser node c =>
    "class " ++ chooser.text ++ " chose node " ++ node.text ++ ", which belongs to class " ++ c.text
  | missingChoice c => "class " ++ c.text ++ " is needed but has no choice"
  | unknownClass c => "class " ++ c.text ++ " is not in the e-graph"
  | cycle path =>
    "the choices form a cycle through classes [" ++
      String.intercalate ", " (path.map fun c => "ClassId(" ++ c.text ++ ")") ++ "]"

variable {α : Type} [Cost α]

/-- A class that a walk has taken up, with the node chosen for it. -/
structure Visit (α : Type) where
  eclass : ClassId
  id : NodeId
  node : Node α

/-- How far a walk has come: its visits, latest first, and why it stopped if it did. -/
structure Walk (α : Type) where
  visits : List (Visit α)
  stopped : Option CheckError

namespace Walk

def start : Walk α := ⟨[], none⟩

def stop (w : Walk α) (e : CheckError) : Walk α := { w with stopped := some e }

def add (w : Walk α) (v : Visit α) : Walk α := { w with visits := v :: w.visits }

def contains (w : Walk α) (c : ClassId) : Bool := w.visits.any fun v => v.eclass = c

def result (w : Walk α) : Except CheckError (List (Visit α)) :=
  match w.stopped with
  | some e => .error e
  | none => .ok w.visits.reverse

end Walk

namespace Selection

def chosen (s : Selection α) (g : EGraph α) (c : ClassId) : Except CheckError (Visit α) :=
  match s.choice? c with
  | none => .error (.missingChoice c)
  | some id =>
    match g.node? id with
    | none => .error (.unknownNode c id)
    | some node => .ok ⟨c, id, node⟩

/-- The node chosen for a class, which has to be one of the class. -/
def chosenMember (s : Selection α) (g : EGraph α) (c : ClassId) : Except CheckError (Visit α) :=
  match s.chosen g c with
  | .error e => .error e
  | .ok v => if v.node.eclass = c then .ok v else .error (.classMismatch c v.id v.node.eclass)

/-- Enters a class in post-order. `path` holds the classes that are entered and not yet done, innermost
first, and `fresh` the classes of the graph that are not on it. -/
def enter (s : Selection α) (g : EGraph α) (fresh path : List ClassId) (w : Walk α) (c : ClassId) :
    Walk α :=
  if w.stopped.isSome || w.contains c then w
  else if c ∈ path then w.stop (.cycle (c :: (path.takeWhile fun d => d ≠ c).reverse))
  else if _h : c ∈ fresh then
    match s.chosenMember g c with
    | .error e => w.stop e
    | .ok v =>
      let below := v.node.children.foldl (fun w d => s.enter g (fresh.erase c) (c :: path) w d) w
      if below.stopped.isSome then below else below.add v
  else w.stop (.unknownClass c)
termination_by fresh.length
decreasing_by
  have := List.length_erase_of_mem _h
  have := List.length_pos_of_mem _h
  omega

/-- The walk that takes up a class after its children. -/
def postOrder (s : Selection α) (g : EGraph α) (roots : List ClassId) : Walk α :=
  roots.foldl (s.enter g g.classes []) .start

/-- Meets a class in the survey. `fresh` holds the classes of the graph that are not being explored. -/
def explore (s : Selection α) (g : EGraph α) (fresh : List ClassId) (w : Walk α) (c : ClassId) :
    Walk α :=
  if w.stopped.isSome || w.contains c then w
  else if _h : c ∈ fresh then
    match s.chosen g c with
    | .error e => w.stop e
    | .ok v => v.node.children.reverse.foldl (fun w d => s.explore g (fresh.erase c) w d) (w.add v)
  else w.stop (.unknownClass c)
termination_by fresh.length
decreasing_by
  have := List.length_erase_of_mem _h
  have := List.length_pos_of_mem _h
  omega

/-- The walk that takes up each class as soon as it is met, the last of several first. -/
def survey (s : Selection α) (g : EGraph α) (roots : List ClassId) : Walk α :=
  roots.reverse.foldl (s.explore g g.classes) .start

end Selection

end Extraction
