import Extraction.Proofs.Cost.Rational
import Extraction.Proofs.Extract.Outcome
import Extraction.Proofs.Relaxation.BillTotals

/-! Graphs in which all nodes of a class cost the same. Two bills that list a class charge the same for it, however
long ago they were drawn up. So a bill has the bills of the children as parts, and since totals only come down, no
total is ever below the cost of its node and the total of a child. -/
namespace Extraction
open Std Relation

variable {α : Type} [Cost α]

/-- Nodes of the same class cost the same. -/
def EGraph.Uniform (g : EGraph α) : Prop :=
  ∀ e ∈ g.nodes.toList, ∀ e' ∈ g.nodes.toList, e.2.eclass = e'.2.eclass → e.2.cost = e'.2.cost

theorem EGraph.Uniform.eq_of_prices {g : EGraph α} (uniform : g.Uniform) {c : ClassId} {x y : α}
    (price : g.Prices c x) (price' : g.Prices c y) : x = y := by
  obtain ⟨_, node, stored, owner, rfl⟩ := price
  obtain ⟨_, node', stored', owner', rfl⟩ := price'
  exact uniform _ (mem_of_node? stored) _ (mem_of_node? stored') (owner.trans owner'.symm)

/-- The total of a class is no lower than the cost of its node and the total of any class below the node. -/
def Plan.Falls (g : EGraph α) (table : Table α (Bill α)) : Prop :=
  ∀ c entry, TreeMap.get? table c = some entry → ∃ node, g.node? entry.choice = some node ∧
    ∀ d ∈ node.children, ∃ below, TreeMap.get? table d = some below ∧
      ¬ entry.total < node.cost + below.total

namespace Plan

/-- A class that a round does not improve has the total that it had, and one that it improves a lower one. -/
theorem exists_entry_tableAfter {β : Type} [OrderedCost α] (plan : Plan α β) (g : EGraph α)
    {table : Table α β} (batch : List NodeId) {d : ClassId} {below : Entry α β}
    (held : TreeMap.get? table d = some below) :
    ∃ below', TreeMap.get? (plan.tableAfter g table batch) d = some below' ∧
      ¬ below.total < below'.total := by
  have covered : (plan.tableAfter g table batch).Covers d :=
    (Table.covers_iff.2 ⟨below, held⟩).update _
  obtain ⟨below', held'⟩ := Table.covers_iff.1 covered
  refine ⟨below', held', ?_⟩
  obtain won | ⟨_, old⟩ := Table.entry_of_update held'
  · exact OrderedCost.asymm (total_lt_of_winner won (Table.total?_of_get? held))
  · rw [Option.some.inj (held.symm.trans old)]
    exact OrderedCost.irrefl _

variable [ExactCost α] {prune : Bool} {passes : Nat} {pace : Pace} {g : EGraph α}

/-- A candidate costs no less than its node and any of the bills that it gathers. -/
theorem not_lt_of_candidate {table : Table α (Bill α)} (uniform : g.Uniform)
    (charged : Charged g table) (totalled : Totalled table) {id : NodeId} {node : Node α}
    {entry below : Entry α (Bill α)} {d : ClassId} (stored : g.node? id = some node)
    (candidate : billEvaluation prune table id node = .candidate entry) (child : d ∈ node.children)
    (held : TreeMap.get? table d = some below) : ¬ entry.total < node.cost + below.total := by
  have off := not_listed_below candidate child held
  rw [total_of_candidate stored candidate, totalled d below held, ← Bill.total_insert off]
  apply Bill.not_total_lt_of_part
  intro e x charge
  rw [TreeMap.getElem?_insert] at charge
  split at charge
  · rename_i own
    rw [LawfulEqCmp.compare_eq_iff_eq] at own
    rw [← own, ← charge]
    exact charge_self candidate
  · have listed := lists_below candidate child held (Bill.mem_iff_exists.2 ⟨x, charge⟩)
    obtain ⟨y, charge'⟩ := Bill.mem_iff_exists.1 listed
    have price := (charged d below held e x charge).1
    have price' := (charges_of_candidate charged stored candidate charge').1
    rw [charge', uniform.eq_of_prices price price']

/-- A round keeps totals no lower than what is below: winners are evaluated by the table before, and what is
below them comes down at most. -/
theorem Falls.tableAfter {table : Table α (Bill α)} (falls : Falls g table) (uniform : g.Uniform)
    (charged : Charged g table) (totalled : Totalled table) (batch : List NodeId) :
    Falls g ((byBills prune passes pace).tableAfter g table batch) := by
  have lowered : ∀ {entry : Entry α (Bill α)} {node : Node α} {d below},
      TreeMap.get? table d = some below → ¬ entry.total < node.cost + below.total →
      ∃ below', TreeMap.get? ((byBills prune passes pace).tableAfter g table batch) d = some below' ∧
        ¬ entry.total < node.cost + below'.total := by
    intro entry node d below held notLess
    obtain ⟨below', held', lower⟩ := exists_entry_tableAfter (byBills prune passes pace) g batch held
    exact ⟨below', held', ExactCost.not_lt_chain
      (ExactCost.not_add_lt_add (OrderedCost.irrefl _) lower) notLess⟩
  intro c entry held
  obtain won | ⟨_, old⟩ := Table.entry_of_update held
  · obtain ⟨node, stored, _, _, candidate, covered⟩ := careful_byBills.node_of_winner won
    refine ⟨node, stored, fun d child => ?_⟩
    obtain ⟨below, heldBelow⟩ := Table.covers_iff.1 (covered d child)
    exact lowered heldBelow
      (not_lt_of_candidate uniform charged totalled stored candidate child heldBelow)
  · obtain ⟨node, stored, kept⟩ := falls c entry old
    refine ⟨node, stored, fun d child => ?_⟩
    obtain ⟨below, heldBelow, notLess⟩ := kept d child
    exact lowered heldBelow notLess

theorem Reached.falls {r : Run α (Bill α)} (reached : (byBills prune passes pace).Reached g r)
    (uniform : g.Uniform) : Falls g r.table := by
  induction reached with
  | start => exact fun c entry held => by cases held
  | step before step ih =>
    cases step with
    | pass => exact ih
    | round => exact ih.tableAfter uniform before.charged before.totalled _

end Plan

/-- Where all nodes of a class cost the same, at every point of a greedy extraction, one node at a time or in
rounds, no total is lower than the cost of the chosen node and the total of a class below it; so no class costs less
than one that its node stands above. -/
theorem Settings.totals_fall [ExactCost α] (settings : Settings) (g : EGraph α)
    (uniform : g.Uniform) (pace : Pace) (r : Run α (Bill α))
    (goes : ReflTransGen ((Plan.greedy settings pace).Goes g) .start r) (c : ClassId)
    (entry : Entry α (Bill α)) (held : TreeMap.get? r.table c = some entry) :
    ∃ node, g.node? entry.choice = some node ∧ ∀ d ∈ node.children,
      ∃ below, TreeMap.get? r.table d = some below ∧
        ¬ entry.total < node.cost + below.total ∧ ¬ entry.total < below.total := by
  obtain ⟨_, reached⟩ := Plan.exists_reached goes
  obtain ⟨node, stored, falls⟩ := reached.falls uniform c entry held
  refine ⟨node, stored, fun d child => ?_⟩
  obtain ⟨below, heldBelow, notLess⟩ := falls d child
  have above : ¬ node.cost + below.total < below.total :=
    OrderedCost.add_not_lt_right (ExactCost.nonnegative _) (ExactCost.nonnegative _)
  exact ⟨below, heldBelow, notLess, ExactCost.not_lt_chain above notLess⟩

section Level
set_option maxRecDepth 100000

/-- A graph of nodes that cost 1. Class 4 has a wide node at first and a narrow one above class 6 later, and class 5
stands above it. -/
def levelGraph : EGraph ℚ≥0 :=
  (Draft.ofNodes [((0 : UInt32), ([] : List UInt32), (1 : ℚ≥0)), (1, [], 1), (2, [], 1), (3, [0], 1),
    (4, [0, 1, 2, 7, 8], 1), (6, [3], 1), (4, [6], 1), (5, [4], 1), (7, [], 1), (8, [], 1),
    (0, [5], 1)] [5]).toGraph.toOption.get (by decide +kernel)

/-- The run on it when class 4 has just got its narrow node. -/
def levelRun : Run ℚ≥0 (Bill ℚ≥0) :=
  (Plan.greedy {} .single).timed levelGraph (fun _ => false) 11 .start

/-- Class 4 has come down to 4, and class 5 is still at 7, for which it was drawn up above the wide node. -/
theorem levelRun_falls : levelGraph.Uniform ∧ levelRun.table.total? ⟨4⟩ = some 4 ∧
    ∃ entry, TreeMap.get? levelRun.table ⟨5⟩ = some entry ∧ entry.total = 7 ∧
      ∃ node, levelGraph.node? entry.choice = some node ∧ ∀ d ∈ node.children,
        ∃ below, TreeMap.get? levelRun.table d = some below ∧
          ¬ entry.total < node.cost + below.total ∧ ¬ entry.total < below.total := by
  have uniform : levelGraph.Uniform := by
    unfold EGraph.Uniform
    decide +kernel
  have goes : ReflTransGen ((Plan.greedy {} .single).Goes levelGraph) .start levelRun :=
    Plan.goes_timed _ levelGraph (fun _ => false) 11 .start
  have seven : levelRun.table.total? ⟨5⟩ = some 7 := by decide +kernel
  obtain ⟨entry, held, total⟩ := Table.total?_eq_some_iff.1 seven
  exact ⟨uniform, by decide +kernel, entry, held, total,
    Settings.totals_fall {} levelGraph uniform .single levelRun goes ⟨5⟩ entry held⟩

end Level

end Extraction
