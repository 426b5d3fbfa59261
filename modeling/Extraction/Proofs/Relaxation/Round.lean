import Extraction.Proofs.Collections
import Extraction.Proofs.Cost.Laws
import Extraction.Relaxation.Run

/-! What one round of a run does. Whatever the pace, the work of a step is a batch of nodes evaluated
against one table, whose winners then enter the table. A winner is the evaluation of a node of the batch
and improves its class; what a node of the batch came to is matched by the table afterwards. -/
namespace Extraction
open Std

variable {α β : Type} [Cost α]

/-- The total that an evaluation comes to, if any. -/
def Evaluation.total? : Evaluation α β → Option α
  | .candidate entry => some entry.total
  | _ => none

omit [Cost α] in
theorem Evaluation.total?_eq_some {e : Evaluation α β} {a : α} :
    e.total? = some a ↔ ∃ entry, e = .candidate entry ∧ entry.total = a := by
  cases e <;> simp [Evaluation.total?]

/-- How many nodes a step takes up. -/
def Pace.size : Pace → Nat
  | .single => 1
  | .rounds size => size

theorem Pace.size_rounds_pos (size : Nat) : 0 < (rounds (max size 1)).size := by
  rw [Pace.size]
  omega

namespace Table
omit [Cost α]

/-- The table with the realizations of a round in it. -/
def update (table : Table α β) (winners : OrderedMap ClassId (Entry α β)) : Table α β :=
  winners.toList.foldl (fun table e => table.insert e.1 e.2) table

theorem get?_foldl_insert {entries : List (ClassId × Entry α β)}
    (distinct : (entries.map Prod.fst).Nodup) (table : Table α β) (c : ClassId) :
    TreeMap.get? (entries.foldl (fun table e => table.insert e.1 e.2) table) c =
      (entries.lookup c).or (TreeMap.get? table c) := by
  induction entries generalizing table with
  | nil => rfl
  | cons e entries ih =>
    obtain ⟨d, entry⟩ := e
    simp only [List.map_cons, List.nodup_cons] at distinct
    rw [List.foldl_cons, ih distinct.2, get?_insert, List.lookup_cons]
    by_cases same : c = d
    · subst same
      have absent : entries.lookup c = none :=
        List.lookup_eq_none_iff.2 fun e he => by
          simpa using fun same : c = e.1 => distinct.1 (same ▸ List.mem_map_of_mem he)
      simp [absent]
    · have other : (c == d) = false := beq_eq_false_iff_ne.2 same
      rw [other, if_neg (Ne.symm same)]

theorem get?_update (table : Table α β) (winners : OrderedMap ClassId (Entry α β)) (c : ClassId) :
    TreeMap.get? (table.update winners) c = (winners.get? c).or (TreeMap.get? table c) :=
  get?_foldl_insert winners.nodup table c

theorem total?_update (table : Table α β) (winners : OrderedMap ClassId (Entry α β)) (c : ClassId) :
    (table.update winners).total? c = ((winners.get? c).map Entry.total).or (table.total? c) := by
  rw [total?, get?_update, Option.map_or]
  rfl

end Table

namespace Plan

/-- The evaluations of a batch of nodes. -/
def evaluations (plan : Plan α β) (g : EGraph α) (table : Table α β) (batch : List NodeId) :
    List (NodeId × Evaluation α β) :=
  batch.map fun id => (id, plan.evaluateIn g table id)

/-- The best realizations of a round so far, with one more evaluation taken into account. -/
def weigh (table : Table α β) (winners : OrderedMap ClassId (Entry α β))
    (evaluation : NodeId × Evaluation α β) : OrderedMap ClassId (Entry α β) :=
  match evaluation.2 with
  | .candidate entry => contend table winners evaluation.1.owner entry
  | _ => winners

/-- The realizations that a batch of nodes puts in the table. -/
def winners (plan : Plan α β) (g : EGraph α) (table : Table α β) (batch : List NodeId) :
    OrderedMap ClassId (Entry α β) :=
  (plan.evaluations g table batch).foldl (weigh table) ∅

/-- The candidate costs with the evaluations of a batch recorded. -/
def recorded (plan : Plan α β) (g : EGraph α) (table : Table α β)
    (candidates : TreeMap NodeId (Option α)) (batch : List NodeId) : TreeMap NodeId (Option α) :=
  batch.foldl (fun candidates id =>
    Selection.recordTotal candidates id (plan.evaluateIn g table id).total?) candidates

theorem foldl_collect (table : Table α β) (evaluations : List (NodeId × Evaluation α β))
    (r : Run α β) (winners : OrderedMap ClassId (Entry α β)) :
    evaluations.foldl (collect table) (r, winners) =
      ({ r with
          candidates := evaluations.foldl (fun candidates e =>
            Selection.recordTotal candidates e.1 e.2.total?) r.candidates
          evaluated := r.evaluated + evaluations.length },
        evaluations.foldl (weigh table) winners) := by
  induction evaluations generalizing r winners with
  | nil => rfl
  | cons e evaluations ih =>
    obtain ⟨id, evaluation⟩ := e
    rw [List.foldl_cons, List.foldl_cons, List.foldl_cons]
    cases evaluation <;>
      simp only [collect, ih, Run.record, weigh, Evaluation.total?, List.length_cons, Nat.add_assoc,
        Nat.add_comm 1]

theorem foldl_install (g : EGraph α) {entries : List (ClassId × Entry α β)}
    (distinct : (entries.map Prod.fst).Nodup) (r : Run α β) :
    entries.foldl (fun r e => r.install g e.1 e.2) r =
      { r with
        table := entries.foldl (fun table e => table.insert e.1 e.2) r.table
        queue := r.queue.insertMany (entries.flatMap fun e => g.parents e.1)
        installs := (entries.map fun e =>
          (⟨e.1, r.table.total? e.1, e.2.total⟩ : Install α)).reverse ++ r.installs } := by
  induction entries generalizing r with
  | nil => rfl
  | cons e entries ih =>
    obtain ⟨c, entry⟩ := e
    simp only [List.map_cons, List.nodup_cons] at distinct
    have kept : ∀ e ∈ entries, Table.total? (r.table.insert c entry) e.1 = r.table.total? e.1 := by
      intro e he
      have other : c ≠ e.1 := fun same => distinct.1 (same ▸ List.mem_map_of_mem he)
      rw [Table.total?, get?_insert, if_neg other]
      rfl
    have same : entries.map (fun e =>
          (⟨e.1, Table.total? (r.table.insert c entry) e.1, e.2.total⟩ : Install α)) =
        entries.map fun e => ⟨e.1, r.table.total? e.1, e.2.total⟩ :=
      List.map_congr_left fun e he => by rw [kept e he]
    rw [List.foldl_cons, ih distinct.2]
    simp only [Run.install, same, List.foldl_cons, List.flatMap_cons, Worklist.insertMany_append,
      List.map_cons, List.reverse_cons, List.append_assoc, List.singleton_append]

/-- All that a batch of nodes changes in a run. -/
theorem takeUpBatch_eq (plan : Plan α β) (g : EGraph α) (r : Run α β) (batch : List NodeId) :
    plan.takeUpBatch g r batch =
      { r with
        table := r.table.update (plan.winners g r.table batch)
        queue := r.queue.insertMany ((plan.winners g r.table batch).keys.flatMap g.parents)
        candidates := plan.recorded g r.table r.candidates batch
        evaluated := r.evaluated + batch.length
        installs := ((plan.winners g r.table batch).toList.map fun e =>
          (⟨e.1, r.table.total? e.1, e.2.total⟩ : Install α)).reverse ++ r.installs } := by
  have collected := foldl_collect r.table (plan.evaluations g r.table batch) r ∅
  have split : plan.takeUpBatch g r batch =
      let state := (plan.evaluations g r.table batch).foldl (collect r.table) (r, ∅)
      state.2.toList.foldl (fun r e => r.install g e.1 e.2) state.1 := rfl
  rw [split, collected]
  simp only [foldl_install g (OrderedMap.nodup _)]
  simp only [Table.update, winners, OrderedMap.keys, List.flatMap_map, recorded, evaluations,
    List.foldl_map, List.length_map]

/-- A single node is a batch of one. -/
theorem takeUp_eq_takeUpBatch (plan : Plan α β) (g : EGraph α) (r : Run α β) (id : NodeId) :
    plan.takeUp g r id = plan.takeUpBatch g r [id] := by
  unfold takeUp takeUpBatch
  cases evaluation : plan.evaluateIn g r.table id with
  | blocked | rejected => simp [evaluation, collect]; rfl
  | candidate entry =>
    have alone : contend r.table ∅ id.owner entry =
        if Cost.improves entry.total (r.table.total? id.owner) then OrderedMap.insert ∅ id.owner entry
        else ∅ := rfl
    simp only [List.map_cons, List.map_nil, evaluation, List.foldl_cons, List.foldl_nil, collect,
      alone]
    have same : (r.record id (some entry.total)).table = r.table := rfl
    by_cases better : Cost.improves entry.total (r.table.total? id.owner)
    · rw [same, if_pos better, if_pos better]
      rfl
    · rw [same, if_neg better, if_neg better]
      rfl

/-- The work of a step is a batch, whatever the pace. -/
theorem work_eq_takeUpBatch (plan : Plan α β) (g : EGraph α) (r : Run α β) :
    plan.work g r =
      plan.takeUpBatch g { r with queue := (r.queue.popBatch plan.pace.size).2 }
        (r.queue.popBatch plan.pace.size).1 := by
  unfold work Pace.size
  cases plan.pace with
  | rounds size => rfl
  | single =>
    obtain ⟨table, ⟨items, members⟩, _⟩ := r
    cases items with
    | nil => rfl
    | cons id rest => exact takeUp_eq_takeUpBatch plan g _ id

/-- Every winner is what a node of the batch came to. -/
theorem exists_of_winner {plan : Plan α β} {g : EGraph α} {table : Table α β}
    {batch : List NodeId} {c : ClassId} {entry : Entry α β}
    (won : (plan.winners g table batch).get? c = some entry) :
    ∃ id ∈ batch, id.owner = c ∧ plan.evaluateIn g table id = .candidate entry := by
  suffices general : ∀ (evaluations : List (NodeId × Evaluation α β)) (winners : OrderedMap _ _),
      (evaluations.foldl (weigh table) winners).get? c = some entry →
        winners.get? c = some entry ∨
          ∃ id, id.owner = c ∧ (id, Evaluation.candidate entry) ∈ evaluations by
    obtain none | ⟨id, owner, found⟩ := general _ _ won
    · cases none
    · obtain ⟨id', inBatch, same⟩ := List.mem_map.1 found
      obtain ⟨rfl, evaluated⟩ := Prod.mk.inj same
      exact ⟨id', inBatch, owner, evaluated⟩
  intro evaluations
  induction evaluations with
  | nil => exact fun winners h => .inl h
  | cons e evaluations ih =>
    intro winners h
    obtain ⟨id, evaluation⟩ := e
    obtain before | ⟨id', owner, later⟩ := ih _ h
    · cases evaluation with
      | blocked | rejected => exact .inl before
      | candidate other =>
        simp only [weigh, contend] at before
        split at before
        · rw [OrderedMap.get?_insert] at before
          split at before
          · rename_i same
            obtain rfl := Option.some.inj before
            exact .inr ⟨id, same.symm, List.mem_cons_self⟩
          · exact .inl before
        · exact .inl before
    · exact .inr ⟨id', owner, List.mem_cons_of_mem _ later⟩

/-- A candidate contends with what the table would hold if the round ended here. -/
theorem contend_eq (table : Table α β) (winners : OrderedMap ClassId (Entry α β)) (c : ClassId)
    (entry : Entry α β) : contend table winners c entry =
      if Cost.improves entry.total ((table.update winners).total? c) then winners.insert c entry
      else winners := by
  rw [Table.total?_update, contend]
  cases winners.get? c <;> rfl

/-- What one candidate changes in what the table comes to. -/
theorem total?_contend (table : Table α β) (winners : OrderedMap ClassId (Entry α β)) (c d : ClassId)
    (entry : Entry α β) :
    (table.update (contend table winners c entry)).total? d =
      if d = c ∧ Cost.improves entry.total ((table.update winners).total? c) then some entry.total
      else (table.update winners).total? d := by
  rw [contend_eq]
  by_cases better : Cost.improves entry.total ((table.update winners).total? c)
  · rw [if_pos better, Table.total?_update, OrderedMap.get?_insert]
    by_cases same : d = c
    · simp [same, better]
    · simp [same, Table.total?_update]
  · simp [better]

theorem lowers_weigh (table : Table α β) (winners : OrderedMap ClassId (Entry α β))
    (evaluation : NodeId × Evaluation α β) (d : ClassId) :
    Cost.Lowers ((table.update winners).total? d)
      ((table.update (weigh table winners evaluation)).total? d) := by
  obtain ⟨id, evaluation⟩ := evaluation
  cases evaluation with
  | blocked | rejected => exact .refl _
  | candidate entry =>
    simp only [weigh, total?_contend]
    split
    · rename_i better
      exact .inr ⟨_, rfl, better.1 ▸ better.2⟩
    · exact .refl _

section Ordered
variable [OrderedCost α]

theorem lowers_foldl_weigh (table : Table α β) (evaluations : List (NodeId × Evaluation α β))
    (winners : OrderedMap ClassId (Entry α β)) (d : ClassId) :
    Cost.Lowers ((table.update winners).total? d)
      ((table.update (evaluations.foldl (weigh table) winners)).total? d) := by
  induction evaluations generalizing winners with
  | nil => exact .refl _
  | cons e evaluations ih => exact (lowers_weigh table winners e d).trans (ih _)

/-- A round leaves no total higher. -/
theorem lowers_winners (plan : Plan α β) (g : EGraph α) (table : Table α β) (batch : List NodeId)
    (d : ClassId) :
    Cost.Lowers (table.total? d) ((table.update (plan.winners g table batch)).total? d) :=
  lowers_foldl_weigh table _ ∅ d

/-- Every winner improves its class. -/
theorem improves_of_winner {plan : Plan α β} {g : EGraph α} {table : Table α β}
    {batch : List NodeId} {c : ClassId} {entry : Entry α β}
    (won : (plan.winners g table batch).get? c = some entry) :
    Cost.improves entry.total (table.total? c) = true := by
  suffices general : ∀ (evaluations : List (NodeId × Evaluation α β)) (winners : OrderedMap _ _),
      (∀ d e, winners.get? d = some e → Cost.improves e.total (table.total? d) = true) →
        ∀ d e, (evaluations.foldl (weigh table) winners).get? d = some e →
          Cost.improves e.total (table.total? d) = true from
    general _ ∅ (fun d e h => by cases h) c entry won
  intro evaluations
  induction evaluations with
  | nil => exact fun winners h => h
  | cons e evaluations ih =>
    intro winners h
    apply ih
    obtain ⟨id, evaluation⟩ := e
    cases evaluation with
    | blocked | rejected => exact h
    | candidate other =>
      intro d e' won
      simp only [weigh, contend] at won
      split at won
      · rename_i better
        rw [OrderedMap.get?_insert] at won
        split at won
        · rename_i same
          obtain rfl := Option.some.inj won
          subst same
          cases first : winners.get? id.owner with
          | none => simpa [first] using better
          | some w =>
            rw [first] at better
            exact Cost.improves_trans (Cost.improves_some.1 better) (h _ w first)
        · exact h d e' won
      · exact h d e' won

theorem total_lt_of_winner {plan : Plan α β} {g : EGraph α} {table : Table α β}
    {batch : List NodeId} {c : ClassId} {entry : Entry α β} {old : α}
    (won : (plan.winners g table batch).get? c = some entry) (held : table.total? c = some old) :
    entry.total < old := by
  have better := improves_of_winner won
  rwa [held, Cost.improves_some] at better

/-- After a round no node of its batch has anything better to offer than what the table holds. -/
theorem not_improves_of_evaluated {plan : Plan α β} {g : EGraph α} {table : Table α β}
    {batch : List NodeId} {id : NodeId} {entry : Entry α β} (taken : id ∈ batch)
    (evaluated : plan.evaluateIn g table id = .candidate entry) :
    Cost.improves entry.total
      ((table.update (plan.winners g table batch)).total? id.owner) = false := by
  suffices general : ∀ (evaluations : List (NodeId × Evaluation α β)) (winners : OrderedMap _ _),
      (id, Evaluation.candidate entry) ∈ evaluations →
        Cost.improves entry.total
          ((table.update (evaluations.foldl (weigh table) winners)).total? id.owner) = false from
    general _ ∅ (List.mem_map.2 ⟨id, taken, by rw [evaluated]⟩)
  intro evaluations
  induction evaluations with
  | nil => exact fun winners h => by cases h
  | cons e evaluations ih =>
    intro winners h
    obtain rfl | later := List.mem_cons.1 h
    · apply (lowers_foldl_weigh table evaluations _ id.owner).not_improves
      simp only [weigh, total?_contend, true_and]
      split
      · exact Cost.not_improves_self _
      · rename_i worse
        exact Bool.eq_false_iff.2 worse
    · exact ih _ later

end Ordered

end Plan

end Extraction
