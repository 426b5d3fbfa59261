import Extraction.Proofs.Relaxation.Measure
import Extraction.Proofs.Cost.Least

/-! Totals and candidate costs of a run by a measure against the measures above the current totals. Totals
only fall, so what was put in or recorded earlier is never below what the node comes to now; once a node is
not queued any more, it is not above either. -/
namespace Extraction
open Std
open Cost (Nonnegative)

variable {α β : Type} [Cost α]

namespace Plan

/-- What a batch, no node of which comes twice, records for a node. -/
theorem get?_recorded (plan : Plan α β) (g : EGraph α) (table : Table α β)
    (candidates : TreeMap NodeId (Option α)) {batch : List NodeId} (nodup : batch.Nodup) (id : NodeId) :
    (plan.recorded g table candidates batch).get? id =
      if id ∈ batch then
        some (Selection.lesser (candidates.getD id none) (plan.evaluateIn g table id).total?)
      else candidates.get? id := by
  induction batch generalizing candidates with
  | nil => rfl
  | cons first batch ih =>
    obtain ⟨apart, nodup⟩ := List.nodup_cons.1 nodup
    rw [recorded, List.foldl_cons]
    apply (ih _ nodup).trans
    by_cases same : first = id
    · subst same
      rw [if_neg apart, if_pos List.mem_cons_self, Selection.recordTotal, get?_insert, if_pos rfl]
    · have other : ∀ entry, (candidates.insert first entry).getD id none = candidates.getD id none := by
        intro entry
        rw [TreeMap.getD_insert]
        simp [same]
      rw [Selection.recordTotal, get?_insert, if_neg same, other]
      simp [Ne.symm same]

theorem lesser_getD {candidates : TreeMap NodeId (Option α)} {id : NodeId} {x : α} {now : Option α}
    (h : Selection.lesser (candidates.getD id none) now = some x) :
    candidates.get? id = some (some x) ∨ now = some x := by
  rcases Selection.lesser_eq_some h with old | new
  · left
    rw [TreeMap.getD_eq_getD_getElem?] at old
    rw [TreeMap.get?_eq_getElem?]
    cases found : candidates[id]? with
    | none => simp [found] at old
    | some y =>
      rw [found] at old
      exact congrArg some old
  · exact .inr new

/-- What is recorded after a round was recorded before or is what a node of the batch has come to. -/
theorem recorded_of_round {plan : Plan α β} {g : EGraph α} {r : Run α β} {polls : Nat} {id : NodeId} {x : α} (nodup : (plan.batch r).Nodup)
    (recorded : (plan.round g polls r).candidates.get? id = some (some x)) :
    r.candidates.get? id = some (some x) ∨
      id ∈ plan.batch r ∧ ∃ entry, plan.evaluateIn g r.table id = .candidate entry ∧ entry.total = x := by
  have written := (get?_recorded plan g r.table r.candidates nodup id).symm.trans recorded
  split at written
  · rename_i taken
    obtain kept | now := lesser_getD (Option.some.inj written)
    · exact .inl kept
    · exact .inr ⟨taken, Evaluation.total?_eq_some.1 now⟩
  · exact .inl written

section Ordered
variable [OrderedCost α] {measure : Node α → List α → α} {g : EGraph α} {r : Run α Unit}

/-- After a round a node comes to no more than before, so that what was not below still is not. -/
theorem exists_measure_tableAfter (superior : Superior measure) {table : Table α Unit}
    {batch : List NodeId} {id : NodeId} {node : Node α} {below : List α} {x : α}
    (nonnegative : table.Nonnegative)
    (nonnegative' : ((byMeasure measure).tableAfter g table batch).Nonnegative)
    (stored : g.node? id = some node) (values : node.children.mapM table.total? = some below)
    (positive : Nonnegative x) (notLess : ¬ x < measure node below) :
    ∃ below', node.children.mapM ((byMeasure measure).tableAfter g table batch).total? = some below' ∧
      ¬ x < measure node below' := by
  have lowers := lowers_winners (byMeasure measure) g table batch
  have covered : ∀ c ∈ node.children, ((byMeasure measure).tableAfter g table batch).Covers c := by
    intro c child
    obtain ⟨a, _, held⟩ := mem_mapM values child
    exact (Table.exists_total_iff.1 ⟨a, held⟩).update _
  obtain ⟨below', values'⟩ := Table.exists_totals covered
  have pairs : List.Forall₂ (fun b a => ¬ a < b) below' below := by
    apply forall₂_of_mapM values' values
    intro c _ b a now held
    rcases lowers c with same | ⟨b', now', better⟩
    · rw [tableAfter, same, held] at now
      rw [Option.some.inj now]
      exact OrderedCost.irrefl b
    · obtain rfl := Option.some.inj (now.symm.trans now')
      rw [held, Cost.improves_some] at better
      exact OrderedCost.asymm better
  have lower := superior.mono (EGraph.nonnegative_cost stored) (nonnegative'.below values')
    (nonnegative.below values) pairs
  exact ⟨below', values', OrderedCost.not_lt_trans
    (superior.nonnegative_measure nonnegative' stored values')
    (superior.nonnegative_measure nonnegative stored values) positive lower notLess⟩

omit [OrderedCost α] in
theorem exists_values_of_founded {table : Table α Unit} (founded : Founded g table) {c : ClassId}
    {entry : Entry α Unit} {node : Node α} (held : TreeMap.get? table c = some entry)
    (stored : g.node? entry.choice = some node) :
    ∃ below, node.children.mapM table.total? = some below := by
  obtain ⟨node', stored', _, covered⟩ := founded c entry held
  obtain rfl := Option.some.inj (stored.symm.trans stored')
  exact Table.exists_totals covered

/-- No total is below what its node comes to now. -/
theorem Reached.not_total_lt (superior : Superior measure) (reached : (byMeasure measure).Reached g r)
    {c : ClassId} {entry : Entry α Unit} {node : Node α} {below : List α}
    (held : TreeMap.get? r.table c = some entry) (stored : g.node? entry.choice = some node)
    (values : node.children.mapM r.table.total? = some below) :
    ¬ entry.total < measure node below := by
  induction reached generalizing c entry node below with
  | start => cases held
  | step before step ih =>
    rename_i r r'
    have after := before.step step
    have nonnegative := before.nonnegative superior
    have nonnegative' := after.nonnegative superior
    have positive : Nonnegative entry.total :=
      nonnegative' (Table.total?_of_get? held)
    cases step with
    | pass => exact ih held stored values
    | round polls busy =>
      have earlier : ∃ old, node.children.mapM r.table.total? = some old ∧
          ¬ entry.total < measure node old := by
        rcases Table.entry_of_update held with won | ⟨_, kept⟩
        · obtain ⟨node', stored', _, _, candidate, _⟩ := careful_byMeasure.node_of_winner won
          obtain rfl := Option.some.inj (stored.symm.trans stored')
          obtain ⟨old, values', same⟩ := measureEvaluation_eq_candidate.1 candidate
          refine ⟨old, values', ?_⟩
          rw [same]
          exact OrderedCost.irrefl _
        · obtain ⟨old, values'⟩ :=
            exists_values_of_founded (before.founded careful_byMeasure) kept stored
          exact ⟨old, values', ih kept stored values'⟩
      obtain ⟨old, values', notLess⟩ := earlier
      obtain ⟨now, values'', notLess'⟩ := exists_measure_tableAfter superior nonnegative
        nonnegative' stored values' positive notLess
      obtain rfl := Option.some.inj (values.symm.trans values'')
      exact notLess'

/-- No recorded cost is below what its node comes to now. -/
theorem Reached.not_recorded_lt (superior : Superior measure)
    (reached : (byMeasure measure).Reached g r) {id : NodeId} {node : Node α} {x : α}
    (stored : g.node? id = some node) (recorded : r.candidates.get? id = some (some x)) :
    ∃ below, node.children.mapM r.table.total? = some below ∧ Nonnegative x ∧
      ¬ x < measure node below := by
  induction reached generalizing x with
  | start => cases recorded
  | step before step ih =>
    rename_i r r'
    have after := before.step step
    have nonnegative := before.nonnegative superior
    have nonnegative' := after.nonnegative superior
    cases step with
    | pass => exact ih recorded
    | round polls busy =>
      have earlier : ∃ old, node.children.mapM r.table.total? = some old ∧ Nonnegative x ∧
          ¬ x < measure node old := by
        obtain kept | ⟨_, entry, evaluated, rfl⟩ := recorded_of_round before.nodup_batch recorded
        · exact ih kept
        · obtain ⟨node', stored', candidate⟩ := evaluateIn_eq_candidate.1 evaluated
          obtain rfl := Option.some.inj (stored.symm.trans stored')
          obtain ⟨old, values, rfl⟩ := measureEvaluation_eq_candidate.1 candidate
          exact ⟨old, values, superior.nonnegative_measure nonnegative stored values,
            OrderedCost.irrefl _⟩
      obtain ⟨old, values, positive, notLess⟩ := earlier
      obtain ⟨now, values', notLess'⟩ := exists_measure_tableAfter superior nonnegative
        nonnegative' stored values positive notLess
      exact ⟨now, values', positive, notLess'⟩

/-- The recorded cost of a node that is not queued is not above what it comes to now. -/
theorem Reached.recorded_le (reached : (byMeasure measure).Reached g r) {id : NodeId} {node : Node α}
    {below : List α} (stored : g.node? id = some node)
    (values : node.children.mapM r.table.total? = some below) (idle : id ∉ r.queue.items)
    (met : 0 < r.pass ∨ node.isLeaf = false) :
    ∃ x, r.candidates.get? id = some (some x) ∧ ¬ measure node below < x := by
  induction reached generalizing below with
  | start =>
    obtain ⟨c, child⟩ := List.exists_mem_of_ne_nil node.children fun none => by
      simp [Node.isLeaf, none, Run.start] at met
    obtain ⟨a, _, held⟩ := mem_mapM values child
    cases held
  | step before step ih =>
    rename_i r r'
    cases step with
    | pass =>
      rw [Run.mem_items_nextPass before.sound, not_or] at idle
      apply ih values idle.1
      right
      apply Bool.eq_false_iff.2
      intro leaf
      exact idle.2 ⟨node, stored, .inr leaf⟩
    | round polls busy =>
      rw [mem_items_round before.sound, not_or] at idle
      obtain ⟨untaken, unconcerned⟩ := idle
      have same : node.children.mapM r.table.total? = some below := by
        rw [← values]
        apply mapM_congr
        intro c child
        have lost : ((byMeasure measure).wins g r).get? c = none :=
          OrderedMap.get?_eq_none_iff.2 fun won =>
            unconcerned ⟨c, won, EGraph.mem_parents.2 ⟨node, stored, child⟩⟩
        simp only [round_table, Table.total?, Table.get?_update, lost, Option.none_or]
      have written :=
        get?_recorded (byMeasure measure) g r.table r.candidates before.nodup_batch id
      by_cases taken : id ∈ (byMeasure measure).batch r
      · have evaluated : (byMeasure measure).evaluateIn g r.table id =
            .candidate ⟨id, measure node below, ()⟩ := evaluateIn_byMeasure stored same
        obtain ⟨x, least, notLess⟩ :=
          Selection.exists_lesser_some (r.candidates.getD id none) (measure node below)
        rw [if_pos taken, evaluated, Evaluation.total?, least] at written
        exact ⟨x, written, notLess⟩
      · rw [if_neg taken] at written
        obtain ⟨x, recorded, notLess⟩ := ih same (not_mem_items taken untaken) met
        exact ⟨x, written.trans recorded, notLess⟩

end Ordered

end Plan

end Extraction
