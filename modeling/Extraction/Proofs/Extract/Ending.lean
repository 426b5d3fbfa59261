import Extraction.Proofs.Double.Laws
import Extraction.Proofs.Extract.Outcome
import Extraction.Proofs.Relaxation.Ending

/-! Every loop of an extraction comes to an end. By bills, each improvement uses up one of finitely many
totals; by a measure, the totals come down level by level. So nothing goes round for ever, not even where
going round costs nothing. -/
namespace Extraction

variable {α : Type} [Cost α]

/-- Whatever the settings and the graph, each of the four loops takes finitely many steps, and then its
queue is empty. -/
theorem Settings.loops_end [OrderedCost α] (settings : Settings) (g : EGraph α) :
    let greedy := Plan.greedy settings .single
    let rounds := Plan.greedy settings (.rounds (max settings.batchSize 1))
    (∃ n ≤ greedy.stepLimit g, greedy.EndsAfter g n) ∧
      (∃ n ≤ rounds.stepLimit g, rounds.EndsAfter g n) ∧
        (∃ n ≤ Plan.bottomUp.stepLimit g, Plan.bottomUp.EndsAfter g n) ∧
          ∃ n ≤ Plan.astDepth.stepLimit g, Plan.astDepth.EndsAfter g n := by
  intro greedy rounds
  have size := Pace.size_rounds_pos settings.batchSize
  have one : 0 < Pace.single.size := Nat.one_pos
  refine ⟨?_, ?_, ?_, ?_⟩
  · exact Plan.exists_endsAfter (Plan.over_byBills _ _ one g)
  · exact Plan.exists_endsAfter (Plan.over_byBills _ _ size g)
  · exact Plan.exists_endsAfter (Plan.over_byMeasure superior_treeMeasure g)
  · exact Plan.exists_endsAfter (Plan.over_byMeasure superior_depthMeasure g)

section Ring
set_option maxRecDepth 100000

/-- A graph whose classes 0, 1 and 2 stand above each other in a ring for nothing and 1 above itself,
with a leaf that costs something and one that does not. -/
def ringGraph : EGraph Float :=
  (Draft.ofNodes [((0 : UInt32), [(1 : UInt32)], (0.0 : Float)), (1, [2], 0), (2, [0, 0], 0),
    (1, [1], 0), (2, [], 7), (0, [], 0)] [0]).toGraph.toOption.get (by decide +kernel)

/-- What is said of all settings, for rounds of two nodes in three passes. -/
theorem ringGraph_ends :
    let rounds := Plan.greedy { passes := 3, batchSize := 2 } (.rounds 2)
    (∃ n ≤ rounds.stepLimit ringGraph, rounds.EndsAfter ringGraph n) ∧
      (rounds.wholeRun ringGraph).pass = 3 ∧
        ∃ n ≤ Plan.bottomUp.stepLimit ringGraph, Plan.bottomUp.EndsAfter ringGraph n := by
  intro rounds
  obtain ⟨_, ⟨n, le, ends⟩, measured, _⟩ :=
    Settings.loops_end { passes := 3, batchSize := 2 } ringGraph
  exact ⟨⟨n, le, ends⟩, ends.done, measured⟩

end Ring

end Extraction
