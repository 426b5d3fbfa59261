import Extraction.Proofs.Cost.Rational
import Extraction.Proofs.Extract.Outcome
import Extraction.Proofs.Relaxation.DrawnUp

/-! The evaluations of the greedy extraction, whatever table they are made against. -/
namespace Extraction
open Std

variable {α : Type} [Cost α]

/-- An evaluation of the greedy extraction against any table whose totals are what its bills come to. It is blocked by
a child without an entry; else it is rejected if the node is refused, and gives an entry drawn up for the node if
not. In no graph does it matter in which order and how often the children of the node stand. -/
theorem Settings.evaluation_settled [ExactCost α] (settings : Settings) (pace : Pace) (g : EGraph α)
    {table : Table α (Bill α)} (totalled : Plan.Totalled table) {id : NodeId} {node : Node α}
    (stored : g.node? id = some node) :
    let plan := Plan.greedy settings pace
    let refuses := Plan.Refuses settings.pruneSingleChild table node
    (plan.evaluateIn g table id = .blocked ↔ ∃ c ∈ node.children, ¬ table.Covers c) ∧
    ((∀ c ∈ node.children, table.Covers c) →
      (plan.evaluateIn g table id = .rejected ↔ node.children ≠ [] ∧ refuses) ∧
      (¬ refuses → ∃ entry, plan.evaluateIn g table id = .candidate entry ∧
        entry.DrawnUp table id node)) ∧
    ∀ (h : EGraph α) (other : Node α), h.node? id = some other → other.eclass = node.eclass →
      other.cost = node.cost → (∀ c, c ∈ other.children ↔ c ∈ node.children) →
      plan.evaluateIn h table id = plan.evaluateIn g table id := by
  intro plan refuses
  have evaluated : ∀ (h : EGraph α) (other : Node α), h.node? id = some other →
      plan.evaluateIn h table id = billEvaluation settings.pruneSingleChild table id other := by
    intro h other found
    rw [Plan.evaluateIn, found]
    rfl
  rw [evaluated g node stored]
  refine ⟨Plan.billEvaluation_eq_blocked, fun covered => ?_, ?_⟩
  · obtain ⟨rejected, drawn⟩ :=
      Plan.billEvaluation_of_covered settings.pruneSingleChild id covered
    refine ⟨⟨fun turned => ?_, fun both => rejected.2 both.2⟩, fun kept => ?_⟩
    · have reason := rejected.1 turned
      exact ⟨reason.inner, reason⟩
    · obtain ⟨entry, candidate⟩ := drawn kept
      exact ⟨entry, candidate, Plan.drawnUp_of_candidate totalled stored candidate⟩
  · intro h other found eclass cost children
    rw [evaluated h other found]
    exact Plan.billEvaluation_of_sameChildren eclass cost children

section Bridge
set_option maxRecDepth 100000

/-- A graph in which class 3 stands above classes 1 and 2, which share the first. The second node of the first class
leads back to it from class 3, and class 4 has nothing but a node above itself. -/
def bridgeGraph : EGraph ℚ≥0 :=
  (Draft.ofNodes [((0 : UInt32), ([] : List UInt32), .divNat 8 1), (1, [0], 1), (2, [0, 0], 1),
    (3, [2, 1, 2], 1), (0, [3], 0), (4, [4, 0], 1)] [3]).toGraph.toOption.get (by decide +kernel)

/-- What the greedy extraction has found out when it is over. -/
def bridgeTable : Table ℚ≥0 (Bill ℚ≥0) := ((Plan.greedy {} .single).wholeRun bridgeGraph).table

theorem bridgeTable_settled :
    let plan := Plan.greedy {} .single
    let top : Node ℚ≥0 := ⟨⟨0⟩, [⟨2⟩, ⟨1⟩, ⟨2⟩], ⟨3⟩, 1⟩
    (∃ entry, plan.evaluateIn bridgeGraph bridgeTable ⟨⟨3⟩, 0⟩ = .candidate entry ∧
      entry.DrawnUp bridgeTable ⟨⟨3⟩, 0⟩ top) ∧
    bridgeTable.total? ⟨3⟩ = some (.divNat 11 1) ∧ bridgeTable.spentAbove top = .divNat 19 1 ∧
    plan.evaluateIn bridgeGraph bridgeTable ⟨⟨0⟩, 1⟩ = .rejected ∧
    plan.evaluateIn bridgeGraph bridgeTable ⟨⟨4⟩, 0⟩ = .blocked := by
  intro plan top
  have totalled : Plan.Totalled bridgeTable :=
    Plan.Reached.totalled ((Plan.greedy {} .single).reached_wholeRun bridgeGraph)
  have stored : bridgeGraph.node? ⟨⟨3⟩, 0⟩ = some top := by decide +kernel
  have storedBack : bridgeGraph.node? ⟨⟨0⟩, 1⟩ = some ⟨⟨0⟩, [⟨3⟩], ⟨0⟩, 0⟩ := by decide +kernel
  have storedLoop : bridgeGraph.node? ⟨⟨4⟩, 0⟩ = some ⟨⟨0⟩, [⟨4⟩, ⟨0⟩], ⟨4⟩, 1⟩ := by decide +kernel
  obtain ⟨_, above, _⟩ := Settings.evaluation_settled {} .single bridgeGraph totalled stored
  obtain ⟨_, back, _⟩ := Settings.evaluation_settled {} .single bridgeGraph totalled storedBack
  obtain ⟨loop, _⟩ := Settings.evaluation_settled {} .single bridgeGraph totalled storedLoop
  refine ⟨(above (by decide +kernel)).2 ?_, by decide +kernel, by decide +kernel,
    (back (by decide +kernel)).1.2 ⟨by decide, ?_⟩, loop.2 ⟨⟨4⟩, by decide, by decide +kernel⟩⟩
  · have open_ : ∀ c ∈ top.children, ∀ below ∈ TreeMap.get? bridgeTable c, ⟨3⟩ ∉ below.detail := by
      decide +kernel
    rintro (self | ⟨child, held, listed⟩ | ⟨_, alone, _⟩)
    · exact absurd self (by decide)
    · exact open_ _ child _ held listed
    · have same := ((alone ⟨1⟩).1 (by decide)).trans ((alone ⟨2⟩).1 (by decide)).symm
      exact absurd same (by decide)
  · have leads : ∃ below ∈ TreeMap.get? bridgeTable ⟨3⟩, ⟨0⟩ ∈ below.detail := by decide +kernel
    obtain ⟨below, held, listed⟩ := leads
    exact .cycle List.mem_cons_self held listed

end Bridge

end Extraction
