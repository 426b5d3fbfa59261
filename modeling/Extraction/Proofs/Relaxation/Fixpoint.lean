import Extraction.Proofs.Relaxation.Attained
import Extraction.Proofs.Relaxation.Phases

/-! The totals with which a run by a measure ends. No node comes to less above them than its class has, and
the node that a class has chosen comes to no more. -/
namespace Extraction.Plan
open Std

variable {α : Type} [Cost α] [OrderedCost α] {measure : Node α → List α → α} {g : EGraph α}

/-- When the run is over, no node comes to less than the total of its class. -/
theorem exists_final_le (superior : Superior measure) {id : NodeId} {node : Node α} {below : List α}
    (stored : g.node? id = some node)
    (values : node.children.mapM ((byMeasure measure).wholeRun g).table.total? = some below) :
    ∃ t, ((byMeasure measure).wholeRun g).table.total? node.eclass = some t ∧
      ¬ measure node below < t := by
  have reached := (byMeasure measure).reached_wholeRun g
  have ended := over_byMeasure superior g
  have spent := reached.spent_of_over careful_byMeasure ended Nat.one_pos id _
    (evaluateIn_byMeasure stored values)
  rw [EGraph.owner_of_node? stored] at spent
  exact Cost.not_improves_iff.1 spent

/-- When the run is over, the total of a class is neither above nor below what its node comes to. -/
theorem final_of_choice (superior : Superior measure) {c : ClassId} {entry : Entry α Unit}
    {node : Node α} {below : List α}
    (held : TreeMap.get? ((byMeasure measure).wholeRun g).table c = some entry)
    (stored : g.node? entry.choice = some node)
    (values : node.children.mapM ((byMeasure measure).wholeRun g).table.total? = some below) :
    ¬ entry.total < measure node below ∧ ¬ measure node below < entry.total := by
  have reached := (byMeasure measure).reached_wholeRun g
  obtain ⟨node', stored', rfl, _⟩ := reached.founded careful_byMeasure c entry held
  obtain rfl := Option.some.inj (stored.symm.trans stored')
  obtain ⟨t, total, notLess⟩ := exists_final_le superior stored values
  obtain rfl := Option.some.inj ((Table.total?_of_get? held).symm.trans total)
  exact ⟨reached.not_total_lt superior held stored values, notLess⟩

end Extraction.Plan
