import Extraction.Proofs.Relaxation.Itemized
import Extraction.Proofs.Relaxation.Timed

/-! The shortcut for single children. Where sums are exact, a node above a single child comes to its cost
and the child's total. A node that the shortcut turns away could not have won, so that runs with the
shortcut and without it put the same realizations in the table, round by round, and differ in what they
record of nodes at most. -/
namespace Extraction
open Std Relation

variable {α β : Type} [Cost α]

/-- The runs differ in what they have recorded of nodes at most. -/
def Run.AlikeButRecords (r r' : Run α β) : Prop := ∃ candidates, r' = { r with candidates }

namespace Plan

section Advance
variable {plan plan' : Plan α β} {g : EGraph α} {r r' : Run α β}

omit [Cost α] in
theorem pollDue_of_alike (pace : plan'.pace = plan.pace) (alike : r.AlikeButRecords r') :
    plan'.pollDue r' = plan.pollDue r := by
  obtain ⟨_, rfl⟩ := alike
  rw [pollDue, pollDue, pace]

omit [Cost α] in
theorem late_of_alike (pace : plan'.pace = plan.pace) (alike : r.AlikeButRecords r')
    (poll : Nat → Bool) : plan'.late poll r' = plan.late poll r := by
  rw [late, late, pollDue_of_alike pace alike]
  obtain ⟨_, rfl⟩ := alike
  rfl

theorem round_of_alike (pace : plan'.pace = plan.pace) (wins : plan'.wins g r = plan.wins g r)
    (alike : r.AlikeButRecords r') (polls : Nat) :
    (plan.round g polls r).AlikeButRecords (plan'.round g polls r') := by
  obtain ⟨candidates, rfl⟩ := alike
  have won : plan'.wins g { r with candidates } = plan.wins g r := wins
  refine ⟨plan'.recorded g r.table candidates (plan'.batch r), ?_⟩
  simp only [round, won, batch, pace]

/-- Alike runs with the same winners stay alike. -/
theorem advance_of_alike (passes : plan'.passes = plan.passes) (pace : plan'.pace = plan.pace)
    (wins : plan'.wins g r = plan.wins g r) (alike : r.AlikeButRecords r') (late : Bool) :
    Option.Rel Run.AlikeButRecords (plan.advance g late r) (plan'.advance g late r') := by
  have worked := round_of_alike pace wins alike
  rw [advance_eq, advance_eq, pollDue_of_alike pace alike, passes]
  obtain ⟨candidates, rfl⟩ := alike
  split
  · exact .none
  split
  · split
    · exact .some ⟨candidates, rfl⟩
    · exact .none
  split
  · exact .some ⟨candidates, rfl⟩
  · exact .some (worked _)

end Advance

section Bills
variable {passes : Nat} {pace : Pace} {g : EGraph α}

theorem candidate_of_shortcut {prune : Bool} {table : Table α (Bill α)} {id : NodeId} {node : Node α}
    {entry : Entry α (Bill α)} (h : billEvaluation prune table id node = .candidate entry) :
    billEvaluation false table id node = .candidate entry := by
  refine billEvaluation_eq_candidate.2 ((billEvaluation_eq_candidate.1 h).imp_right ?_)
  rintro ⟨inner, children, values, apart, _, open_, drawn⟩
  exact ⟨inner, children, values, apart, rfl, open_, drawn⟩

/-- What the shortcut turns away is no candidate or a node above a single child, whose total is in the way. -/
theorem candidate_or_hopeless {table : Table α (Bill α)} {id : NodeId} {node : Node α}
    {entry : Entry α (Bill α)} (h : billEvaluation false table id node = .candidate entry) :
    billEvaluation true table id node = .candidate entry ∨
      ∃ child, node.distinctChildren.mapM table.get? = some [child] ∧
        Cost.improves (node.cost + child.total) (table.total? node.eclass) = false ∧
        (Bill.merge [child.detail]).contains node.eclass = false ∧
        billed id node (Bill.merge [child.detail]) = entry := by
  obtain ⟨leaf, drawn⟩ | ⟨inner, children, values, apart, _, open_, drawn⟩ :=
    billEvaluation_eq_candidate.1 h
  · exact .inl (billEvaluation_eq_candidate.2 (.inl ⟨leaf, drawn⟩))
  cases hopeless_ : hopeless table node children with
  | false =>
    exact .inl (billEvaluation_eq_candidate.2
      (.inr ⟨inner, children, values, apart, hopeless_, open_, drawn⟩))
  | true =>
    right
    unfold hopeless at hopeless_
    split at hopeless_
    · rename_i child _
      exact ⟨child, values, by simpa using hopeless_, open_, drawn⟩
    · cases hopeless_

variable [ExactCost α]

/-- The bill of a node above a single child comes to the cost of the node and the child's total. -/
theorem total_above_single {table : Table α (Bill α)} (totalled : Totalled table) {c : ClassId}
    {node : Node α} {choice : NodeId} {child : Entry α (Bill α)}
    (held : TreeMap.get? table c = some child)
    (off : (Bill.merge [child.detail]).contains node.eclass = false) :
    (billed choice node (Bill.merge [child.detail])).total = node.cost + child.total := by
  have new : node.eclass ∉ Bill.merge [child.detail] := by
    intro listed
    rw [TreeMap.contains_iff_mem.2 listed] at off
    cases off
  rw [billed, Bill.total_insert new, Bill.total_merge_singleton, totalled c child held]

/-- What the shortcut turns away is no candidate or does not improve its class. -/
theorem candidate_or_not_improves {table : Table α (Bill α)} (totalled : Totalled table) {id : NodeId}
    {node : Node α} {entry : Entry α (Bill α)}
    (h : billEvaluation false table id node = .candidate entry) :
    billEvaluation true table id node = .candidate entry ∨
      Cost.improves entry.total (table.total? node.eclass) = false := by
  refine (candidate_or_hopeless h).imp_right ?_
  rintro ⟨child, values, worse, open_, drawn⟩
  obtain ⟨c, _, held⟩ := (children_of_distinct values).2 child (List.mem_singleton_self child)
  rwa [← drawn, total_above_single totalled held open_]

/-- In a round whose winners so far improve the table, the shortcut does not matter to an evaluation. -/
theorem weigh_of_shortcut {table : Table α (Bill α)} (totalled : Totalled table)
    {winners : OrderedMap ClassId (Entry α (Bill α))}
    (lowers : ∀ c, Cost.Lowers (table.total? c) ((table.update winners).total? c)) (id : NodeId) :
    weigh table winners (id, (byBills true passes pace).evaluateIn g table id) =
      weigh table winners (id, (byBills false passes pace).evaluateIn g table id) := by
  cases stored : g.node? id with
  | none => simp only [evaluateIn, stored]
  | some node =>
    simp only [evaluateIn, stored, byBills]
    cases short : billEvaluation true table id node with
    | candidate entry => rw [candidate_of_shortcut short]
    | blocked | rejected =>
      cases full : billEvaluation false table id node with
      | blocked | rejected => rfl
      | candidate entry =>
        have worse : Cost.improves entry.total (table.total? node.eclass) = false := by
          refine (candidate_or_not_improves totalled full).resolve_left fun same => ?_
          cases short.symm.trans same
        have idle := (lowers node.eclass).not_improves worse
        simp only [weigh, EGraph.owner_of_node? stored, contend_eq, idle, Bool.false_eq_true, if_false]

/-- A batch puts the same realizations in the table with the shortcut and without it. -/
theorem winners_of_shortcut {table : Table α (Bill α)} (totalled : Totalled table)
    (batch : List NodeId) : (byBills true passes pace).winners g table batch =
      (byBills false passes pace).winners g table batch := by
  simp only [winners, evaluations, List.foldl_map]
  have start : ∀ c, Cost.Lowers (table.total? c) ((table.update ∅).total? c) := fun c => .refl _
  generalize (∅ : OrderedMap ClassId (Entry α (Bill α))) = winners at start
  induction batch generalizing winners with
  | nil => rfl
  | cons id batch ih =>
    rw [List.foldl_cons, List.foldl_cons, ← weigh_of_shortcut totalled start]
    exact ih _ fun c => (start c).trans (lowers_weigh table winners _ c)

end Bills

end Plan

end Extraction
