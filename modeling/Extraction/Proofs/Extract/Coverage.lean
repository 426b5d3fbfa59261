import Extraction.Proofs.Double.Laws
import Extraction.Proofs.Extract.Outcome

/-! What extraction covers. A class is realizable if some node of it stands above realizable classes
only. Whatever the settings, exactly the realizable classes are chosen for, and an extraction fails on
account of those roots only that are not realizable. -/
namespace Extraction
open Std

variable {α β : Type} [Cost α]

/-- The least set of classes that has a class if it has all children of some node of the class. -/
inductive EGraph.Realizable (g : EGraph α) : ClassId → Prop
  | node {id : NodeId} {node : Node α} (stored : g.node? id = some node)
      (below : ∀ c ∈ node.children, g.Realizable c) : g.Realizable node.eclass

theorem EGraph.Realizable.mem_classes {g : EGraph α} {c : ClassId} (h : g.Realizable c) :
    c ∈ g.classes := by
  cases h with
  | node stored _ => exact EGraph.mem_classes.2 ⟨_, _, stored, rfl⟩

namespace Plan

/-- What makes a plan find a realization of every class that has one. -/
structure Complete (plan : Plan α β) (g : EGraph α) : Prop where
  careful : plan.Careful
  begins : 0 < plan.passes
  ends : (plan.wholeRun g).Over plan.passes
  realizes : ∀ {r id node}, plan.Reached g r → g.node? id = some node →
    (∀ c ∈ node.children, r.table.Covers c) → ¬ r.table.Covers node.eclass →
    ∃ entry, plan.evaluate r.table id node = .candidate entry

variable {plan : Plan α β} {g : EGraph α} {r : Run α β}

theorem Reached.realizable (careful : plan.Careful) (reached : plan.Reached g r) {c : ClassId}
    (covered : r.table.Covers c) : g.Realizable c := by
  obtain ⟨entry, held⟩ := Table.covers_iff.1 covered
  refine reached.forall_entries careful (Q := fun c _ => g.Realizable c) ?_ c entry held
  intro table node entry realizable stored candidate
  refine .node stored fun d child => ?_
  obtain ⟨below, held⟩ := Table.covers_iff.1 (careful.ready candidate d child)
  exact realizable d below held

/-- When the run is over, the table covers the realizable classes and no others. -/
theorem Complete.covers_iff [OrderedCost α] (complete : plan.Complete g) {c : ClassId} :
    (plan.wholeRun g).table.Covers c ↔ g.Realizable c := by
  have reached := plan.reached_wholeRun g
  constructor
  · exact reached.realizable complete.careful
  · intro realizable
    induction realizable with
    | @node id node stored _ ih =>
      by_contra fresh
      obtain ⟨entry, candidate⟩ := complete.realizes reached stored ih fresh
      have spent := reached.spent_of_over complete.careful complete.ends complete.begins id entry
        (evaluateIn_eq_candidate.2 ⟨node, stored, candidate⟩)
      rw [EGraph.owner_of_node? stored, Table.total?_eq_none fresh] at spent
      cases spent

omit [Cost α] in
theorem exists_candidate_byMeasure {measure : Node α → List α → α} {table : Table α Unit}
    {id : NodeId} {node : Node α} (below : ∀ c ∈ node.children, table.Covers c) :
    ∃ entry, measureEvaluation measure table id node = .candidate entry := by
  obtain ⟨totals, values⟩ := Table.exists_totals below
  exact ⟨_, measureEvaluation_eq_candidate.2 ⟨totals, values, rfl⟩⟩

section Ordered
variable [OrderedCost α]

theorem complete_byMeasure {measure : Node α → List α → α} (superior : Superior measure)
    (g : EGraph α) : (byMeasure measure).Complete g where
  careful := careful_byMeasure
  begins := Nat.one_pos
  ends := over_byMeasure superior g
  realizes _ _ below _ := exists_candidate_byMeasure below

theorem complete_byBills (prune : Bool) {passes : Nat} (begins : 0 < passes) {pace : Pace}
    (size : 0 < pace.size) (g : EGraph α) : (byBills prune passes pace).Complete g where
  careful := careful_byBills
  begins := begins
  ends := over_byBills prune passes size g
  realizes reached _ below fresh := exists_candidate_byBills reached below fresh

end Ordered

end Plan

open Classical in
/-- The extraction chooses for the realizable classes, in the order of the classes, and fails only
because of roots that are not realizable. -/
structure EGraph.CoveredBy (g : EGraph α) (roots : List ClassId)
    (result : Except ExtractError (Selection α)) : Prop where
  keys : ∀ s, result = .ok s → s.choices.keys = g.classes.filter fun c => g.Realizable c
  ok_iff : (∃ s, result = .ok s) ↔ ∀ c ∈ roots, g.Realizable c
  error : (¬ ∀ c ∈ roots, g.Realizable c) →
    result = .error (.uncoverableRoots (roots.filter fun c => ¬ g.Realizable c).eraseDups)

open Classical in
theorem Plan.Complete.coveredBy [OrderedCost α] {plan : Plan α β} {g : EGraph α}
    (complete : plan.Complete g) (limit : Nat) (roots : List ClassId) :
    g.CoveredBy roots (Id.run (plan.extract limit g roots fun _ => pure false)).selection := by
  have covers : ∀ c, (plan.wholeRun g).table.contains c = decide (g.Realizable c) := by
    intro c
    rw [Bool.eq_iff_iff, decide_eq_true_iff, ← complete.covers_iff, Table.Covers,
      TreeMap.contains_eq_isSome_getElem?]
    rfl
  have uncovered : (plan.wholeRun g).uncovered roots =
      (roots.filter fun c => ¬ g.Realizable c).eraseDups := by
    simp only [Run.uncovered, covers, decide_not]
  have outcome := plan.extract_eq limit g roots complete.ends
  rw [uncovered] at outcome
  have keys : ((plan.wholeRun g).selection g).choices.keys =
      g.classes.filter fun c => g.Realizable c := by
    rw [Run.keys_selection]
    apply List.filter_congr
    intro c _
    rw [Bool.eq_iff_iff, decide_eq_true_iff, ← complete.covers_iff, Table.Covers]
  by_cases all : ∀ c ∈ roots, g.Realizable c
  · have none : (roots.filter fun c => ¬ g.Realizable c) = [] :=
      List.filter_eq_nil_iff.2 fun c mem => by simpa using all c mem
    rw [none, List.eraseDups_nil, if_pos List.isEmpty_nil] at outcome
    constructor
    · intro s ok
      obtain rfl := Except.ok.inj (outcome.symm.trans ok)
      exact keys
    · exact ⟨fun _ => all, fun _ => ⟨_, outcome⟩⟩
    · exact fun some => absurd all some
  · have some : ¬ (roots.filter fun c => ¬ g.Realizable c).eraseDups.isEmpty = true := by
      intro empty
      apply all
      intro c mem
      by_contra fails
      have listed : c ∈ (roots.filter fun c => ¬ g.Realizable c).eraseDups :=
        List.mem_eraseDups.2 (List.mem_filter.2 ⟨mem, by simpa using fails⟩)
      rw [List.isEmpty_iff.1 empty] at listed
      cases listed
    rw [if_neg some] at outcome
    constructor
    · intro s ok
      cases outcome.symm.trans ok
    · constructor
      · rintro ⟨s, ok⟩
        cases outcome.symm.trans ok
      · exact fun all' => absurd all' all
    · exact fun _ => outcome

open Classical in
/-- What is covered, or the roots that are not, by realizability alone. -/
theorem EGraph.CoveredBy.map_keys {g : EGraph α} {roots : List ClassId}
    {result : Except ExtractError (Selection α)} (covered : g.CoveredBy roots result) :
    (result.map fun s => s.choices.keys) =
      if ∀ c ∈ roots, g.Realizable c then .ok (g.classes.filter fun c => g.Realizable c)
      else .error (.uncoverableRoots (roots.filter fun c => ¬ g.Realizable c).eraseDups) := by
  by_cases all : ∀ c ∈ roots, g.Realizable c
  · obtain ⟨s, ok⟩ := covered.ok_iff.2 all
    rw [if_pos all, ← covered.keys s ok, ok]
    rfl
  · rw [if_neg all, covered.error all]
    rfl

/-- Whatever the settings, an extraction follows a plan that finds what is realizable in any graph. -/
theorem Settings.exists_complete [OrderedCost α] (settings : Settings) :
    ∃ (β : Type) (plan : Plan α β), (∀ g, plan.Complete g) ∧ ∀ g roots, settings.untimed g roots =
      (Id.run (plan.extract (settings.timeoutSecs.getD 0) g roots fun _ => pure false)).selection := by
  have begins : 0 < max settings.passes 1 := by omega
  unfold untimed run
  cases settings.extractor with
  | greedyDag =>
    have size : 0 < Pace.single.size := Nat.one_pos
    exact ⟨_, _, Plan.complete_byBills _ begins size, fun _ _ => rfl⟩
  | parallelGreedyDag =>
    have size : 0 < (Pace.rounds (max settings.batchSize 1)).size := by
      rw [Pace.size]
      omega
    exact ⟨_, _, Plan.complete_byBills _ begins size, fun _ _ => rfl⟩
  | bottomUp => exact ⟨_, _, Plan.complete_byMeasure superior_treeMeasure, fun _ _ => rfl⟩
  | astDepth => exact ⟨_, _, Plan.complete_byMeasure superior_depthMeasure, fun _ _ => rfl⟩

/-- Whatever the settings and the roots, an extraction without a time limit covers exactly the
realizable classes. -/
theorem Settings.untimed_coveredBy [OrderedCost α] (settings : Settings) (g : EGraph α)
    (roots : List ClassId) : g.CoveredBy roots (settings.untimed g roots) := by
  obtain ⟨_, plan, complete, untimed⟩ := settings.exists_complete (α := α)
  rw [untimed]
  exact (complete g).coveredBy _ roots

section Loop
set_option maxRecDepth 100000

/-- A graph whose class 2 stands only above itself. -/
def loopGraph : EGraph Float :=
  (Draft.ofNodes [((0 : UInt32), [(1 : UInt32)], (1.0 : Float)), (1, [0], 1), (1, [], 5), (2, [2], 1)]
    [0]).toGraph.toOption.get (by decide +kernel)

open Classical in
theorem loopGraph_realizable :
    loopGraph.Realizable ⟨0⟩ ∧ loopGraph.Realizable ⟨1⟩ ∧ ¬ loopGraph.Realizable ⟨2⟩ := by
  have keys := (Settings.untimed_coveredBy {} loopGraph []).keys _ (ok_get_toOption (by decide +kernel))
  have chosen : ((Settings.untimed {} loopGraph []).toOption.get (by decide +kernel)).choices.keys =
      [⟨0⟩, ⟨1⟩] := by decide +kernel
  have listed : ∀ c, c ∈ [(⟨0⟩ : ClassId), ⟨1⟩] ↔ c ∈ loopGraph.classes ∧ loopGraph.Realizable c := by
    intro c
    rw [← chosen, keys, List.mem_filter, decide_eq_true_iff]
  refine ⟨((listed _).1 (by decide)).2, ((listed _).1 (by decide)).2, ?_⟩
  intro realizable
  exact absurd ((listed _).2 ⟨realizable.mem_classes, realizable⟩) (by decide)

end Loop

end Extraction
