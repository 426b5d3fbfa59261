import Extraction.Proofs.Extract.StaleBills
import Extraction.Proofs.Relaxation.Itemized

/-! Bills throughout an extraction. Wherever a greedy extraction stands, and whatever it is told about the
time, every entry of its table is itemized: its bill names a stored node for the class and realized classes
for all that is below. So a selection that it returns is complete, and the check can find nothing in it but
a cycle. -/
namespace Extraction
open Std Relation

variable {α : Type} [Cost α]

/-- At every point of a greedy extraction, one node at a time or in rounds, the entries of all classes are
itemized. What is selected in the end for the roots of the graph fails the check on account of cycles only. -/
theorem Settings.bills_itemized [OrderedCost α] (settings : Settings) (g : EGraph α) :
    (∀ pace r, ReflTransGen ((Plan.greedy settings pace).Goes g) .start r →
      ∀ c entry, TreeMap.get? r.table c = some entry → entry.Itemized g r.table c) ∧
    ∀ (poll : Nat → Bool) s, g.roots ≠ [] →
      settings.extractor = .greedyDag ∨ settings.extractor = .parallelGreedyDag →
      (Id.run (settings.run g g.roots fun n => pure (poll n))).selection = .ok s →
      ∀ e, s.check g = .error e → ∃ path, e = .cycle path := by
  constructor
  · intro pace r goes c entry held
    obtain ⟨_, reached⟩ := Plan.exists_reached goes
    exact reached.itemized held
  · intro poll s rooted _ ok e error
    obtain ⟨founded, chosen⟩ := founded_of_run ok
    obtain ⟨path, cycle, _⟩ := founded.circle_of_check rooted chosen error
    exact ⟨path, cycle⟩

section Stale
set_option maxRecDepth 100000

/-- Where class 6 has become cheap and the bill of class 4 is out of date, all bills are itemized still,
and what the check finds is a cycle. -/
theorem staleGraph_itemized :
    let r := (Plan.greedy {} .single).wholeRun staleGraph
    (∀ c entry, TreeMap.get? r.table c = some entry → entry.Itemized staleGraph r.table c) ∧
      r.table.total? ⟨4⟩ = some 45 ∧ r.table.total? ⟨6⟩ = some 6 ∧
      ∃ s path, (Id.run (({} : Settings).run staleGraph staleGraph.roots
          fun _ => pure false)).selection = .ok s ∧
        s.check staleGraph = .error (.cycle path) := by
  intro r
  obtain ⟨itemized, cycles⟩ := Settings.bills_itemized {} staleGraph
  have whole := itemized .single r (Plan.goes_timed _ staleGraph (fun _ => false) _ .start)
  have rooted : staleGraph.roots ≠ [] := by decide +kernel
  have selected : ({} : Settings).untimed staleGraph staleGraph.roots =
      .ok (staleSelection {} (by decide +kernel)) := ok_get_toOption _
  have fails : (staleSelection {} (by decide +kernel)).check staleGraph ≠ .ok () := by
    decide +kernel
  refine ⟨whole, by decide +kernel, by decide +kernel, ?_⟩
  cases result : (staleSelection {} (by decide +kernel)).check staleGraph with
  | ok u => exact absurd result fails
  | error e =>
    obtain ⟨path, rfl⟩ := cycles (fun _ => false) _ rooted (.inl rfl) selected e result
    exact ⟨_, path, selected, result⟩

end Stale

end Extraction
