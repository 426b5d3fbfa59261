import Extraction.Graph.Sealed
import Extraction.Relaxation.Table
import Extraction.Selection.Basic
import Extraction.Worklist

/-! Relaxation. Queued nodes are evaluated against the table of best realizations, either one at a time
or in rounds that all see the same table; where a class improves, the nodes that have it as a child are
queued. A run is a sequence of single steps, and before some of them the time is looked at. -/
namespace Extraction
open Std

variable {α β : Type} [Cost α]

/-- How many nodes are evaluated against the same table. -/
inductive Pace where
  | single
  | rounds (size : Nat)
  deriving DecidableEq, Repr

/-- What decides a run on a given graph. -/
structure Plan (α β : Type) where
  evaluate : Table α β → NodeId → Node α → Evaluation α β
  passes : Nat
  pace : Pace

/-- An improvement: the class, its total before, and its total afterwards. -/
structure Install (α : Type) where
  eclass : ClassId
  before : Option α
  after : α

/-- A run part way through. Improvements stand latest first. -/
structure Run (α β : Type) where
  table : Table α β
  queue : Worklist NodeId
  candidates : TreeMap NodeId (Option α)
  installs : List (Install α)
  evaluated : Nat
  pass : Nat
  polls : Nat
  overdue : Bool

/-- The nodes that a pass begins with: the leaves in the first, all nodes in a later one. -/
def EGraph.seeds (g : EGraph α) (pass : Nat) : List NodeId :=
  (g.nodes.filter fun _ node => 0 < pass || node.isLeaf).keys

namespace Run

def start : Run α β := ⟨∅, ∅, ∅, [], 0, 0, 0, false⟩

def nextPass (g : EGraph α) (r : Run α β) : Run α β :=
  { r with queue := r.queue.insertMany (g.seeds r.pass), pass := r.pass + 1 }

def record (r : Run α β) (id : NodeId) (total : Option α) : Run α β :=
  { r with candidates := Selection.recordTotal r.candidates id total, evaluated := r.evaluated + 1 }

/-- Puts a realization in the table and queues the nodes that it concerns. -/
def install (g : EGraph α) (r : Run α β) (c : ClassId) (entry : Entry α β) : Run α β :=
  { r with
    table := r.table.insert c entry
    queue := r.queue.insertMany (g.parents c)
    installs := ⟨c, r.table.total? c, entry.total⟩ :: r.installs }

end Run

namespace Plan

def evaluateIn (plan : Plan α β) (g : EGraph α) (table : Table α β) (id : NodeId) :
    Evaluation α β :=
  match g.node? id with
  | none => .rejected
  | some node => plan.evaluate table id node

/-- Takes up one node and installs its realization if that is an improvement. -/
def takeUp (plan : Plan α β) (g : EGraph α) (r : Run α β) (id : NodeId) : Run α β :=
  match plan.evaluateIn g r.table id with
  | .candidate entry =>
    let r := r.record id (some entry.total)
    if Cost.improves entry.total (r.table.total? id.owner) then r.install g id.owner entry else r
  | _ => r.record id none

/-- The best realizations of a round so far, with one more candidate taken into account. -/
def contend (table : Table α β) (winners : OrderedMap ClassId (Entry α β)) (c : ClassId)
    (entry : Entry α β) : OrderedMap ClassId (Entry α β) :=
  let best := (winners.get? c).map Entry.total <|> table.total? c
  if Cost.improves entry.total best then winners.insert c entry else winners

/-- Records one evaluation of a round and lets it contend for its class. -/
def collect (table : Table α β) (state : Run α β × OrderedMap ClassId (Entry α β))
    (evaluation : NodeId × Evaluation α β) : Run α β × OrderedMap ClassId (Entry α β) :=
  match evaluation with
  | (id, .candidate entry) =>
    (state.1.record id (some entry.total), contend table state.2 id.owner entry)
  | (id, _) => (state.1.record id none, state.2)

/-- Takes up a batch of nodes, all evaluated against the same table, and then installs the best
realization of each class that improves. -/
def takeUpBatch (plan : Plan α β) (g : EGraph α) (r : Run α β) (batch : List NodeId) : Run α β :=
  let evaluations := batch.map fun id => (id, plan.evaluateIn g r.table id)
  let (r, winners) := evaluations.foldl (collect r.table) (r, ∅)
  winners.toList.foldl (fun r e => r.install g e.1 e.2) r

/-- How many nodes are taken up one at a time between two looks at the time. -/
def pollInterval : Nat := 1024

def pollDue (plan : Plan α β) (r : Run α β) : Bool :=
  !r.queue.isEmpty &&
    match plan.pace with
    | .single => r.evaluated % pollInterval = 0
    | .rounds _ => true

def work (plan : Plan α β) (g : EGraph α) (r : Run α β) : Run α β :=
  match plan.pace with
  | .single =>
    match r.queue.pop with
    | (none, _) => r
    | (some id, queue) => plan.takeUp g { r with queue } id
  | .rounds size =>
    let (batch, queue) := r.queue.popBatch size
    plan.takeUpBatch g { r with queue } batch

/-- One step of a run, none if the run is over. `late` is what a look at the time would tell. -/
def advance (plan : Plan α β) (g : EGraph α) (late : Bool) (r : Run α β) : Option (Run α β) :=
  if r.overdue then none
  else if r.queue.isEmpty then if r.pass < plan.passes then some (r.nextPass g) else none
  else if plan.pollDue r then
    let r := { r with polls := r.polls + 1, overdue := late }
    if late then some r else some (plan.work g r)
  else some (plan.work g r)

/-- More steps than any run takes: each pass begins once and queues every node at most, and each
improvement queues every node at most; a class can improve no more often than there are ways to leave
out classes and pick a node for each other. -/
def stepLimit (plan : Plan α β) (g : EGraph α) : Nat :=
  let nodes := g.nodes.size
  let ways := (g.classes.map fun c => (g.membersOf c).length + 1).foldl (· * ·) 1
  plan.passes * (nodes + 1) + nodes * g.classes.length * ways

/-- Steps until the run is over, or `limit` times. `poll` looks at the time. -/
def iterate {m : Type → Type} [Monad m] (plan : Plan α β) (g : EGraph α) (poll : Nat → m Bool) :
    (limit : Nat) → Run α β → m (Run α β)
  | 0, r => pure r
  | limit + 1, r => do
    let late ← if plan.pollDue r then poll r.polls else pure false
    match plan.advance g late r with
    | none => pure r
    | some r => plan.iterate g poll limit r

def run {m : Type → Type} [Monad m] (plan : Plan α β) (g : EGraph α) (poll : Nat → m Bool) :
    m (Run α β) :=
  plan.iterate g poll (plan.stepLimit g) .start

end Plan

end Extraction
