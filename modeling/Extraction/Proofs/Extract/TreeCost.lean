import Extraction.Proofs.Cost.Rational
import Extraction.Proofs.Extract.Acyclic
import Extraction.Proofs.Extract.Coverage
import Extraction.Proofs.Relaxation.Fixpoint
import Extraction.Proofs.Selection.Tabulate

/-! The tree cost that extraction by tree cost attains. When the run is over, the total of a class is what
its node costs above the totals of its children, and no node of the class costs less; so the totals are the
tree costs of the selection, and they bound those of any other one from below. -/
namespace Extraction
open Std
open Cost (Nonnegative)

variable {α : Type} [Cost α]

theorem ExactCost.treeMeasure_eq [ExactCost α] (node : Node α) (below : List α) :
    treeMeasure node below = node.treeCost below := foldl_add node.cost below

namespace Plan

/-- The total that a class has when the run by tree cost is over. -/
def treeTotal? (g : EGraph α) : ClassId → Option α :=
  ((byMeasure treeMeasure).wholeRun g).table.total?

variable [ExactCost α] {g : EGraph α}

/-- When the run is over, no node costs less above the totals than its class. -/
theorem exists_total_le {id : NodeId} {node : Node α} {below : List α}
    (stored : g.node? id = some node) (values : node.children.mapM (treeTotal? g) = some below) :
    ∃ t, treeTotal? g node.eclass = some t ∧ ¬ node.treeCost below < t := by
  rw [← ExactCost.treeMeasure_eq]
  exact exists_final_le superior_treeMeasure stored values

/-- The total of a class is the tree cost of its node above the totals. -/
theorem total_eq_treeCost {c : ClassId} {entry : Entry α Unit} {node : Node α} {below : List α}
    (held : TreeMap.get? ((byMeasure treeMeasure).wholeRun g).table c = some entry)
    (stored : g.node? entry.choice = some node)
    (values : node.children.mapM (treeTotal? g) = some below) :
    entry.total = node.treeCost below := by
  obtain ⟨notLess, notLess'⟩ := final_of_choice superior_treeMeasure held stored values
  rw [← ExactCost.treeMeasure_eq]
  exact ExactCost.eq_of_not_lt notLess notLess'

/-- Along the selection of the run, the walk computes the totals. -/
theorem tabulate_selection {visits : List (Visit α)}
    (grounded : Selection.Grounded (((byMeasure treeMeasure).wholeRun g).selection g) g visits.reverse) :
    ∀ v ∈ visits, (tabulate Node.treeCost visits).get? v.eclass = treeTotal? g v.eclass := by
  have tabulated := grounded.tabulated Node.treeCost
  rw [List.reverse_reverse] at tabulated
  have all := grounded.visit_induction
    (Q := fun c => (tabulate Node.treeCost visits).get? c = treeTotal? g c) ?_
  · intro v mem
    exact all v (List.mem_reverse.2 mem)
  · intro v mem below
    obtain ⟨values, inner, held⟩ := tabulated v mem
    obtain ⟨_, choice, stored, _⟩ := Selection.chosenMember_eq_ok.1 (grounded.proper v mem)
    obtain ⟨_, chosen⟩ := Run.choice?_selection.1 choice
    obtain ⟨entry, there, same⟩ := Option.map_eq_some_iff.1 chosen
    rw [mapM_congr below] at inner
    have total := total_eq_treeCost there (same ▸ stored) inner
    rw [held, treeTotal?, Table.total?_eq_some_iff.2 ⟨entry, there, total⟩]

/-- Along any selection, what the walk computes for a class is not below its total. -/
theorem total_le_tabulate {s : Selection α} {visits : List (Visit α)}
    (grounded : s.Grounded g visits.reverse) :
    ∀ v ∈ visits, ∃ x t, (tabulate Node.treeCost visits).get? v.eclass = some x ∧
      treeTotal? g v.eclass = some t ∧ ¬ x < t := by
  have tabulated := grounded.tabulated Node.treeCost
  rw [List.reverse_reverse] at tabulated
  have all := grounded.visit_induction (Q := fun c => ∃ x t,
    (tabulate Node.treeCost visits).get? c = some x ∧ treeTotal? g c = some t ∧ ¬ x < t) ?_
  · intro v mem
    exact all v (List.mem_reverse.2 mem)
  · intro v mem below
    obtain ⟨values, inner, held⟩ := tabulated v mem
    obtain ⟨_, _, stored, owner⟩ := Selection.chosenMember_eq_ok.1 (grounded.proper v mem)
    obtain ⟨values', totals, inner', inner'', lower⟩ := ExactCost.exists_sums below
    obtain rfl := Option.some.inj (inner.symm.trans inner')
    obtain ⟨t, total, notLess⟩ := exists_total_le stored inner''
    have lower' : ¬ v.node.treeCost values < v.node.treeCost totals :=
      ExactCost.not_add_lt_add (OrderedCost.irrefl _) lower
    exact ⟨_, t, held, owner ▸ total, ExactCost.not_lt_chain notLess lower'⟩

/-- The tree cost of covered roots is the sum of their totals. -/
theorem treeCost_selection {roots : List ClassId}
    (covered : ∀ c ∈ roots, ((byMeasure (treeMeasure (α := α))).wholeRun g).table.Covers c) :
    ∃ totals, roots.mapM (treeTotal? g) = some totals ∧
      (((byMeasure treeMeasure).wholeRun g).selection g).treeCost g roots = .ok (Cost.sum totals) := by
  obtain ⟨totals, values⟩ := Table.exists_totals covered
  obtain ⟨visits, walk⟩ := exists_postOrder superior_treeMeasure covered
  obtain ⟨grounded, visited⟩ := Selection.grounded_of_postOrder walk
  have same : roots.mapM (tabulate Node.treeCost visits).get? = some totals := by
    rw [← values]
    apply mapM_congr
    intro c root
    obtain ⟨v, mem, rfl⟩ := List.mem_map.1 ((visited c).2 ⟨c, root, .refl⟩)
    exact tabulate_selection grounded v mem
  refine ⟨totals, values, Selection.treeCost_eq_ok.2 ⟨visits, walk, ?_⟩⟩
  rw [filterMap_of_mapM same]

theorem treeCost_singleton {c : ClassId}
    (covered : ((byMeasure (treeMeasure (α := α))).wholeRun g).table.Covers c) :
    ((((byMeasure treeMeasure).wholeRun g).selection g).treeCost g [c]).toOption =
      treeTotal? g c := by
  obtain ⟨totals, values, cost⟩ := treeCost_selection (List.forall_mem_singleton.2 covered)
  rw [mapM_eq_some_iff] at values
  cases values with
  | cons total rest =>
    cases rest with
    | nil =>
      rw [cost, total, ExactCost.sum_singleton]
      rfl

/-- No selection has a tree cost below the sum of the totals. -/
theorem sum_totals_le_treeCost {s : Selection α} {roots : List ClassId} {cost : α}
    (ok : s.treeCost g roots = .ok cost) :
    ∃ totals, roots.mapM (treeTotal? g) = some totals ∧ ¬ cost < Cost.sum totals := by
  obtain ⟨visits, walk, rfl⟩ := Selection.treeCost_eq_ok.1 ok
  obtain ⟨grounded, visited⟩ := Selection.grounded_of_postOrder walk
  have bounded : ∀ c ∈ roots, ∃ x t, (tabulate Node.treeCost visits).get? c = some x ∧
      treeTotal? g c = some t ∧ ¬ x < t := by
    intro c root
    obtain ⟨v, mem, rfl⟩ := List.mem_map.1 ((visited c).2 ⟨c, root, .refl⟩)
    exact total_le_tabulate grounded v mem
  obtain ⟨values, totals, inner, inner', lower⟩ := ExactCost.exists_sums bounded
  rw [filterMap_of_mapM inner]
  exact ⟨totals, inner', lower⟩

/-- What is recorded for a node above covered classes is its tree cost above their totals. -/
theorem candidates_wholeRun {id : NodeId} {node : Node α} {below : List α}
    (stored : g.node? id = some node) (values : node.children.mapM (treeTotal? g) = some below) :
    ((byMeasure treeMeasure).wholeRun g).candidates.get? id = some (some (node.treeCost below)) := by
  have reached := (byMeasure (treeMeasure (α := α))).reached_wholeRun g
  have ended := over_byMeasure superior_treeMeasure g
  have idle : id ∉ ((byMeasure (treeMeasure (α := α))).wholeRun g).queue.items := by
    rw [ended.idle]
    exact List.not_mem_nil
  obtain ⟨x, recorded, notLess⟩ := reached.recorded_le stored values idle (.inl ended.done)
  obtain ⟨below', values', _, notLess'⟩ := reached.not_recorded_lt superior_treeMeasure stored recorded
  obtain rfl := Option.some.inj (values.symm.trans values')
  rw [recorded, ← ExactCost.treeMeasure_eq, ExactCost.eq_of_not_lt notLess notLess']

end Plan

/-- Extraction by tree cost attains the least tree cost that any selection has, and records for every node
above covered classes what the node costs above the tree costs of its children. -/
theorem Settings.bottomUp_least_treeCost [ExactCost α] (settings : Settings)
    (bottomUp : settings.extractor = .bottomUp) (g : EGraph α) (roots : List ClassId)
    (s : Selection α) (ok : settings.untimed g roots = .ok s) :
    (∃ least, s.treeCost g roots = .ok least ∧
      ∀ (other : Selection α) cost, other.treeCost g roots = .ok cost → ¬ cost < least) ∧
      ∀ id node, g.node? id = some node → (∀ c ∈ node.children, (s.choice? c).isSome) →
        ∃ below, node.children.mapM (fun c => (s.treeCost g [c]).toOption) = some below ∧
          s.candidates.get? id = some (some (node.cost + Cost.sum below)) := by
  unfold untimed run at ok
  rw [bottomUp] at ok
  obtain ⟨rfl, covered⟩ := Plan.selection_of_extract ok
  constructor
  · obtain ⟨totals, values, least⟩ := Plan.treeCost_selection covered
    refine ⟨_, least, ?_⟩
    intro other cost attained
    obtain ⟨totals', values', notLess⟩ := Plan.sum_totals_le_treeCost attained
    obtain rfl := Option.some.inj (values.symm.trans values')
    exact notLess
  · intro id node stored chosen
    have below : ∀ c ∈ node.children,
        ((Plan.byMeasure (treeMeasure (α := α))).wholeRun g).table.Covers c := by
      intro c child
      obtain ⟨id', choice⟩ := Option.isSome_iff_exists.1 (chosen c child)
      obtain ⟨entry, held, _⟩ := Option.map_eq_some_iff.1 (Run.choice?_selection.1 choice).2
      exact Table.covers_iff.2 ⟨entry, held⟩
    obtain ⟨totals, values, _⟩ := Plan.treeCost_selection below
    refine ⟨totals, ?_, ?_⟩
    · rw [← values]
      exact mapM_congr fun c child => Plan.treeCost_singleton (below c child)
    · exact (congrArg (fun m => TreeMap.get? m id) (Run.candidates_selection g _)).trans
        (Plan.candidates_wholeRun stored values)

section Shared
set_option maxRecDepth 100000

/-- A graph that uses its class 1 twice, which has a node dearer than the one above class 2. -/
def twiceGraph : EGraph ℚ≥0 :=
  (Draft.ofNodes [((0 : UInt32), [(1 : UInt32), 1], (1 / 2 : ℚ≥0)), (1, [], 5), (1, [2, 0], 1), (1, [2], 1),
    (2, [], 1 / 3)] [0]).toGraph.toOption.get (by decide +kernel)

def twiceSelection : Selection ℚ≥0 :=
  (Settings.untimed { extractor := .bottomUp } twiceGraph [⟨0⟩]).toOption.get (by decide +kernel)

theorem twiceSelection_least : twiceSelection.treeCost twiceGraph [⟨0⟩] = .ok (19 / 6) ∧
    ∀ (other : Selection ℚ≥0) cost, other.treeCost twiceGraph [⟨0⟩] = .ok cost → ¬ cost < 19 / 6 := by
  obtain ⟨⟨least, attained, bound⟩, _⟩ :=
    Settings.bottomUp_least_treeCost { extractor := .bottomUp } rfl twiceGraph [⟨0⟩] twiceSelection
      (ok_get_toOption _)
  have value : twiceSelection.treeCost twiceGraph [⟨0⟩] = .ok (19 / 6) := by decide +kernel
  obtain rfl := Except.ok.inj (attained.symm.trans value)
  exact ⟨value, bound⟩

end Shared

end Extraction
