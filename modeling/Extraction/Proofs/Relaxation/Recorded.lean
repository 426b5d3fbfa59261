import Extraction.Proofs.Relaxation.Attained

/-! Recorded costs beside totals. No cost that is recorded for a node is below the total of its class, and
the cost recorded for the node that a class has chosen is that total. -/
namespace Extraction
open Std
open Cost (Nonnegative)

variable {α β : Type} [Cost α] [OrderedCost α]

/-- What improves on a total is below whatever does not. -/
theorem Cost.lt_of_improves {a b : α} {best : Option α} (ha : Nonnegative a) (hb : Nonnegative b)
    (hbest : ∀ c, best = some c → Nonnegative c) (better : improves a best = true)
    (bound : improves b best = false) : a < b := by
  obtain ⟨c, rfl, notLess⟩ := not_improves_iff.1 bound
  exact OrderedCost.lt_of_lt_of_not_lt ha (hbest c rfl) hb (improves_some.1 better) notLess

namespace Plan

/-- No node ever evaluates to less than nothing. -/
def Nonnegative (plan : Plan α β) (g : EGraph α) : Prop :=
  ∀ {r : Run α β} {id entry}, plan.Reached g r → plan.evaluateIn g r.table id = .candidate entry →
    Cost.Nonnegative entry.total

variable {plan : Plan α β} {g : EGraph α} {r : Run α β}

omit [OrderedCost α] in
theorem Reached.nonnegative_total (reached : plan.Reached g r) (positive : plan.Nonnegative g)
    {c : ClassId} {entry : Entry α β} (held : TreeMap.get? r.table c = some entry) :
    Cost.Nonnegative entry.total := by
  induction reached with
  | start => cases held
  | step before step ih =>
    cases step with
    | pass => exact ih held
    | round =>
      obtain won | ⟨_, old⟩ := Table.entry_of_update held
      · obtain ⟨_, _, _, evaluated⟩ := exists_of_winner won
        exact positive before evaluated
      · exact ih old

omit [OrderedCost α] in
theorem Reached.nonnegative_recorded (reached : plan.Reached g r) (positive : plan.Nonnegative g)
    {id : NodeId} {x : α} (recorded : r.candidates.get? id = some (some x)) :
    Cost.Nonnegative x := by
  induction reached with
  | start => cases recorded
  | step before step ih =>
    cases step with
    | pass => exact ih recorded
    | round =>
      obtain kept | ⟨_, entry, evaluated, rfl⟩ := recorded_of_round before.nodup_batch recorded
      · exact ih kept
      · exact positive before evaluated

/-- No recorded cost is below the total of the class. -/
theorem Reached.not_improves_of_recorded (reached : plan.Reached g r) {id : NodeId} {x : α}
    (recorded : r.candidates.get? id = some (some x)) :
    Cost.improves x (r.table.total? id.owner) = false := by
  induction reached with
  | start => cases recorded
  | step before step ih =>
    cases step with
    | pass => exact ih recorded
    | round =>
      obtain kept | ⟨taken, entry, evaluated, rfl⟩ := recorded_of_round before.nodup_batch recorded
      · exact (lowers_winners plan g _ _ _).not_improves (ih kept)
      · exact not_improves_of_evaluated taken evaluated

/-- A winner costs less than all that has been recorded for its node. -/
theorem Reached.improves_recorded (reached : plan.Reached g r) (positive : plan.Nonnegative g)
    {batch : List NodeId} {entry : Entry α β} {node : Node α}
    (won : (plan.winners g r.table batch).get? node.eclass = some entry)
    (stored : g.node? entry.choice = some node)
    (evaluated : plan.evaluateIn g r.table entry.choice = .candidate entry) :
    Cost.improves entry.total (r.candidates.getD entry.choice none) = true := by
  cases recorded : r.candidates.getD entry.choice none with
  | none => rfl
  | some x =>
    have kept : Selection.lesser (r.candidates.getD entry.choice none) none = some x := recorded
    have found := (lesser_getD kept).resolve_right nofun
    have above := reached.not_improves_of_recorded found
    rw [EGraph.owner_of_node? stored] at above
    refine Cost.improves_some.2 (Cost.lt_of_improves (positive reached evaluated)
      (reached.nonnegative_recorded positive found) ?_ (improves_of_winner won) above)
    intro total held
    obtain ⟨old, held', rfl⟩ := Table.total?_eq_some_iff.1 held
    exact reached.nonnegative_total positive held'

/-- The cost recorded for the node that a class has chosen is the total of the class. -/
theorem Reached.recorded_choice (reached : plan.Reached g r) (careful : plan.Careful)
    (positive : plan.Nonnegative g) {c : ClassId} {entry : Entry α β}
    (held : TreeMap.get? r.table c = some entry) :
    r.candidates.get? entry.choice = some (some entry.total) := by
  induction reached with
  | start => cases held
  | step before step ih =>
    cases step with
    | pass => exact ih held
    | round =>
      rename_i r _ _
      refine (get?_recorded plan g r.table r.candidates before.nodup_batch entry.choice).trans ?_
      obtain won | ⟨lost, kept⟩ := Table.entry_of_update held
      · obtain ⟨node, stored, rfl, taken, candidate, _⟩ := careful.node_of_winner won
        have evaluated := evaluateIn_eq_candidate.2 ⟨node, stored, candidate⟩
        rw [if_pos taken, evaluated, Evaluation.total?, Selection.lesser,
          if_pos (before.improves_recorded positive won stored evaluated)]
      · have recorded := ih kept
        split
        · rename_i taken
          have old : r.candidates.getD entry.choice none = some entry.total := by
            rw [TreeMap.getD_eq_getD_getElem?, ← TreeMap.get?_eq_getElem?, recorded]
            rfl
          obtain ⟨node, stored, owner, _⟩ := before.founded careful c entry kept
          -- Evaluated again, the node has not improved its class.
          rw [old, Selection.lesser_of_not_improves]
          intro x now
          obtain ⟨again, evaluated, rfl⟩ := Evaluation.total?_eq_some.1 now
          have worse := not_improves_of_evaluated taken evaluated
          have total : (r.table.update (plan.winners g r.table (plan.batch r))).total? c =
              some entry.total := Table.total?_of_get? held
          rwa [EGraph.owner_of_node? stored, owner, total] at worse
        · exact recorded

end Plan

end Extraction
