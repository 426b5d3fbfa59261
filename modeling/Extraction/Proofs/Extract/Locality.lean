import Extraction.Proofs.Cost.Rational
import Extraction.Proofs.Extract.Outcome
import Extraction.Proofs.Relaxation.Projection

/-! Extraction one node at a time is local. What it makes of classes that are closed under children does not
depend on the rest of the graph, although the rest goes through the same queue: the choices, the recorded costs
and the improvements in their order are those of an extraction from these classes alone. -/
namespace Extraction
open Std

variable {α β : Type} [Cost α]

/-- The selection holds what the other one holds for the classes in `D`, and nothing else. -/
structure Selection.IsPart (s' : Selection α) (D : ClassId → Bool) (s : Selection α) : Prop where
  choices : s'.choices.toList = s.choices.toList.filter fun e => D e.1
  candidates : ∀ id, s'.candidates.get? id = if D id.owner then s.candidates.get? id else none

/-- The outcome is what the other one is for the classes in `D`, or the same error. -/
structure Outcome.IsPart (o' : Outcome α) (D : ClassId → Bool) (o : Outcome α) : Prop where
  installs : o'.installs = o.installs.filter fun i => D i.eclass
  fails : ∀ e, o'.selection = .error e ↔ o.selection = .error e
  selects : ∀ s, o.selection = .ok s → ∃ s', o'.selection = .ok s' ∧ s'.IsPart D s

namespace Plan
variable {plan : Plan α β} {g h : EGraph α} {D : ClassId → Bool} {r r' : Run α β}

omit [Cost α] in
theorem Projects.uncovered (projects : Projects D r r') {roots : List ClassId}
    (inside : ∀ c ∈ roots, D c = true) : r'.uncovered roots = r.uncovered roots := by
  rw [Run.uncovered, Run.uncovered]
  congr 1
  apply List.filter_congr
  intro c root
  rw [TreeMap.contains_eq_isSome_getElem?, TreeMap.contains_eq_isSome_getElem?,
    ← TreeMap.get?_eq_getElem?, ← TreeMap.get?_eq_getElem?, projects.table, if_pos (inside c root)]

theorem Projects.selection (part : h.IsPart D g) (projects : Projects D r r') :
    (r'.selection h).IsPart D (r.selection g) where
  choices := by
    rw [Run.toList_selection, Run.toList_selection, part.classes, List.filterMap_filter,
      List.filter_filterMap]
    apply List.filterMap_congr
    intro c _
    rw [Table.choice?, projects.table, Table.choice?]
    cases inside : D c <;> cases TreeMap.get? r.table c <;>
      simp [Option.filter, inside]
  candidates := by
    rw [Run.candidates_selection, Run.candidates_selection]
    exact projects.candidates

/-- An extraction from a part of a graph, where both extractions come to an end. -/
theorem isPart_of_extract (part : h.IsPart D g) (one : plan.pace.size = 1) (local_ : plan.Local)
    (ended : ∀ g, (plan.wholeRun g).Over plan.passes) (limit : Nat) {roots : List ClassId}
    (inside : ∀ c ∈ roots, D c = true) :
    (Id.run (plan.extract limit h roots fun _ => pure false)).IsPart D
      (Id.run (plan.extract limit g roots fun _ => pure false)) := by
  have projects := projects_wholeRun part one local_ (ended g) (ended h)
  have selection := plan.extract_eq limit g roots (ended g)
  have selection' := plan.extract_eq limit h roots (ended h)
  rw [projects.uncovered inside] at selection'
  constructor
  · rw [installs_of_extract, installs_of_extract, projects.installs, List.filter_reverse]
  · intro e
    rw [selection, selection']
    split
    · exact iff_of_false nofun nofun
    · rfl
  · intro s ok
    rw [selection] at ok
    rw [selection']
    split at ok
    · rename_i covered
      obtain rfl := Except.ok.inj ok
      exact ⟨_, if_pos covered, projects.selection part⟩
    · cases ok

end Plan

/-- Without a time limit and one node at a time, an extraction from a part of a graph, for roots inside, makes the
improvements that one from the whole graph makes there, in the same order, and comes to the same choices and
recorded costs or to the same error. -/
theorem Settings.run_isPart [OrderedCost α] (settings : Settings)
    (sequential : settings.extractor ≠ .parallelGreedyDag) (g h : EGraph α) (D : ClassId → Bool)
    (part : h.IsPart D g) (roots : List ClassId) (inside : ∀ c ∈ roots, D c = true) :
    (Id.run (settings.run h roots fun _ => pure false)).IsPart D
      (Id.run (settings.run g roots fun _ => pure false)) := by
  have one : 0 < Pace.single.size := Nat.one_pos
  unfold run
  cases extractor : settings.extractor with
  | greedyDag =>
    exact Plan.isPart_of_extract part rfl Plan.local_byBills (Plan.over_byBills _ _ one) _ inside
  | parallelGreedyDag => exact absurd extractor sequential
  | bottomUp =>
    exact Plan.isPart_of_extract part rfl Plan.local_byMeasure
      (Plan.over_byMeasure superior_treeMeasure) _ inside
  | astDepth =>
    exact Plan.isPart_of_extract part rfl Plan.local_byMeasure
      (Plan.over_byMeasure superior_depthMeasure) _ inside

section Inner
set_option maxRecDepth 100000

/-- A graph whose classes 0, 1 and 2 stand above each other only, with classes 3 and 4 that are queued between
them. -/
def outerGraph : EGraph ℚ≥0 :=
  (Draft.ofNodes [((3 : UInt32), ([] : List UInt32), .divNat 2 1), (1, [], .divNat 9 1), (0, [1], 1),
    (4, [1, 3], 1), (2, [], 1), (1, [2], 1), (3, [2], 0)] [0]).toGraph.toOption.get (by decide +kernel)

def Inner (c : ClassId) : Bool := c.value < 3

theorem inner_closed {id : NodeId} {node : Node ℚ≥0} (stored : outerGraph.node? id = some node)
    (inside : Inner node.eclass = true) : ∀ c ∈ node.children, Inner c = true := by
  have all : ∀ e ∈ outerGraph.nodes.toList, Inner e.2.eclass = true →
      ∀ c ∈ e.2.children, Inner c = true := by decide +kernel
  exact all _ (EGraph.mem_of_node? stored) inside

def innerGraph : EGraph ℚ≥0 := outerGraph.part Inner inner_closed

/-- Five of the nine improvements are made in classes 0, 1 and 2, with others between them. -/
theorem innerGraph_installs :
    let outcome (g : EGraph ℚ≥0) := Id.run (({} : Settings).run g [⟨0⟩] fun _ => pure false)
    (outcome innerGraph).installs.map Install.eclass = [⟨1⟩, ⟨2⟩, ⟨0⟩, ⟨1⟩, ⟨0⟩] ∧
      (outcome outerGraph).installs.map Install.eclass =
        [⟨3⟩, ⟨1⟩, ⟨2⟩, ⟨4⟩, ⟨0⟩, ⟨1⟩, ⟨3⟩, ⟨0⟩, ⟨4⟩] := by
  intro outcome
  have part : (outcome innerGraph).IsPart Inner (outcome outerGraph) :=
    Settings.run_isPart {} (by decide) outerGraph innerGraph Inner
      (outerGraph.part_isPart Inner inner_closed) [⟨0⟩] (by decide)
  have whole : (outcome outerGraph).installs.map Install.eclass =
      [⟨3⟩, ⟨1⟩, ⟨2⟩, ⟨4⟩, ⟨0⟩, ⟨1⟩, ⟨3⟩, ⟨0⟩, ⟨4⟩] := by decide +kernel
  refine ⟨?_, whole⟩
  have filtered : (outcome innerGraph).installs.map Install.eclass =
      ((outcome outerGraph).installs.map Install.eclass).filter Inner := by
    rw [part.installs, List.filter_map]
    rfl
  rw [filtered, whole]
  rfl

end Inner

end Extraction
