import Extraction.Proofs.Graph.Lookup
import Extraction.Proofs.Relaxation.Steps

/-! What holds of every run that is never late. The queue holds stored nodes and none twice; the node
that a class has chosen is stored under it and stands above classes that have a realization; and a node
that is not queued has nothing better to offer than what its class has. -/
namespace Extraction
open Std

variable {α β : Type} [Cost α]

/-- The class has a realization. -/
def Table.Covers (table : Table α β) (c : ClassId) : Prop := (TreeMap.get? table c).isSome

instance (table : Table α β) (c : ClassId) : Decidable (table.Covers c) :=
  inferInstanceAs (Decidable ((TreeMap.get? table c).isSome = true))

namespace Table
omit [Cost α]

theorem covers_iff {table : Table α β} {c : ClassId} :
    table.Covers c ↔ ∃ entry, TreeMap.get? table c = some entry := Option.isSome_iff_exists

theorem total?_eq_some_iff {table : Table α β} {c : ClassId} {a : α} :
    table.total? c = some a ↔ ∃ entry, TreeMap.get? table c = some entry ∧ entry.total = a :=
  Option.map_eq_some_iff

theorem total?_of_get? {table : Table α β} {c : ClassId} {entry : Entry α β}
    (held : TreeMap.get? table c = some entry) : table.total? c = some entry.total := by
  rw [total?, held]
  rfl

theorem exists_total_iff {table : Table α β} {c : ClassId} :
    (∃ a, table.total? c = some a) ↔ table.Covers c := by
  rw [← Option.isSome_iff_exists, total?, Option.isSome_map]
  rfl

theorem total?_eq_none {table : Table α β} {c : ClassId} (bare : ¬ table.Covers c) :
    table.total? c = none := by
  apply Option.eq_none_iff_forall_ne_some.2
  intro a total
  exact bare (exists_total_iff.1 ⟨a, total⟩)

theorem exists_totals {table : Table α β} {classes : List ClassId}
    (covered : ∀ c ∈ classes, table.Covers c) : ∃ totals, classes.mapM table.total? = some totals :=
  exists_mapM fun c mem => exists_total_iff.2 (covered c mem)

theorem Covers.update {table : Table α β} {c : ClassId} (h : table.Covers c)
    (winners : OrderedMap ClassId (Entry α β)) : (table.update winners).Covers c := by
  rw [Covers, get?_update, Option.isSome_or, Bool.or_eq_true]
  exact .inr h

/-- An entry after a round was there before or has just won. -/
theorem entry_of_update {table : Table α β} {winners : OrderedMap ClassId (Entry α β)} {c : ClassId}
    {entry : Entry α β} (h : TreeMap.get? (table.update winners) c = some entry) :
    winners.get? c = some entry ∨ winners.get? c = none ∧ TreeMap.get? table c = some entry := by
  rwa [get?_update, Option.or_eq_some_iff] at h

end Table

namespace EGraph

theorem mem_seeds {g : EGraph α} {pass : Nat} {id : NodeId} :
    id ∈ g.seeds pass ↔ ∃ node, g.node? id = some node ∧ (0 < pass ∨ node.isLeaf = true) := by
  simp [seeds, mem_keys_filter]

end EGraph

namespace Run

@[simp] theorem nextPass_pass (g : EGraph α) (r : Run α β) : (r.nextPass g).pass = r.pass + 1 := rfl

@[simp] theorem nextPass_table (g : EGraph α) (r : Run α β) : (r.nextPass g).table = r.table := rfl

theorem mem_items_nextPass {g : EGraph α} {r : Run α β} (sound : r.queue.Sound) {id : NodeId} :
    id ∈ (r.nextPass g).queue.items ↔
      id ∈ r.queue.items ∨ ∃ node, g.node? id = some node ∧ (0 < r.pass ∨ node.isLeaf = true) := by
  rw [← EGraph.mem_seeds]
  exact Worklist.mem_insertMany sound

end Run

namespace Plan

/-- The table that a batch of nodes leads to. -/
def tableAfter (plan : Plan α β) (g : EGraph α) (table : Table α β) (batch : List NodeId) :
    Table α β := table.update (plan.winners g table batch)

/-- What the evaluation of nodes has to be like. A candidate chooses the node itself and stands above
covered classes, and it depends on nothing but the realizations of the children, except that a better
realization of the class may turn it away. -/
structure Careful (plan : Plan α β) : Prop where
  chooses : ∀ {table : Table α β} {id node entry}, plan.evaluate table id node = .candidate entry →
    entry.choice = id
  ready : ∀ {table : Table α β} {id node entry}, plan.evaluate table id node = .candidate entry →
    ∀ c ∈ node.children, table.Covers c
  steady : ∀ {table table' : Table α β} {id node entry},
    (∀ c ∈ node.children, TreeMap.get? table' c = TreeMap.get? table c) →
    (∀ a, Cost.improves a (table'.total? node.eclass) → Cost.improves a (table.total? node.eclass)) →
    plan.evaluate table' id node = .candidate entry → plan.evaluate table id node = .candidate entry

variable {plan : Plan α β} {g : EGraph α} {r r' : Run α β}

theorem evaluateIn_eq_candidate {table : Table α β} {id : NodeId} {entry : Entry α β} :
    plan.evaluateIn g table id = .candidate entry ↔
      ∃ node, g.node? id = some node ∧ plan.evaluate table id node = .candidate entry := by
  unfold evaluateIn
  cases g.node? id <;> simp

namespace Reached

/-- What holds of the empty table and is kept by every round holds of the table of every run. -/
theorem table_induction {P : Table α β → Prop} (start : P ∅)
    (round : ∀ table batch, P table → P (plan.tableAfter g table batch))
    (reached : plan.Reached g r) : P r.table := by
  induction reached with
  | start => exact start
  | step _ step ih =>
    cases step with
    | pass => exact ih
    | round => exact round _ _ ih

theorem sound (reached : plan.Reached g r) : r.queue.Sound := by
  induction reached with
  | start => exact Worklist.sound_empty
  | step _ step ih =>
    cases step with
    | pass => exact ih.insertMany _
    | round => exact (ih.popBatch _).insertMany _

theorem nodup_batch (reached : plan.Reached g r) : (plan.batch r).Nodup :=
  reached.sound.nodup.sublist (List.take_sublist _ _)

/-- Only nodes of the graph are queued. -/
theorem stored (reached : plan.Reached g r) : ∀ id ∈ r.queue.items, id ∈ g.nodes.keys := by
  induction reached with
  | start => exact fun id h => by cases h
  | step before step ih =>
    intro id h
    cases step with
    | pass =>
      rcases (Run.mem_items_nextPass before.sound).1 h with old | ⟨node, stored, _⟩
      · exact ih id old
      · exact EGraph.mem_keys_iff.2 ⟨node, stored⟩
    | round =>
      rcases (mem_items_round before.sound).1 h with old | ⟨c, _, parent⟩
      · exact ih id (List.mem_of_mem_drop old)
      · obtain ⟨node, stored, _⟩ := EGraph.mem_parents.1 parent
        exact EGraph.mem_keys_iff.2 ⟨node, stored⟩

theorem length_queue_le (reached : plan.Reached g r) : r.queue.items.length ≤ g.nodes.size := by
  rw [OrderedMap.size, ← List.length_map (f := Prod.fst)]
  exact reached.sound.nodup.length_le_of_subset reached.stored

/-- Nothing happens before the first pass. -/
theorem pass_pos (reached : plan.Reached g r) (busy : r.queue.items ≠ []) : 0 < r.pass := by
  induction reached with
  | start => exact absurd rfl busy
  | step before step ih =>
    cases step with
    | pass => exact Nat.succ_pos _
    | round _ before => exact ih before

end Reached

/-- Every class of the table has chosen a node that is stored under it and stands above covered
classes. -/
def Founded (g : EGraph α) (table : Table α β) : Prop :=
  ∀ c entry, TreeMap.get? table c = some entry →
    ∃ node, g.node? entry.choice = some node ∧ node.eclass = c ∧ ∀ d ∈ node.children, table.Covers d

/-- The node of a winner. -/
theorem Careful.node_of_winner (careful : plan.Careful) {table : Table α β} {batch : List NodeId}
    {c : ClassId} {entry : Entry α β} (won : (plan.winners g table batch).get? c = some entry) :
    ∃ node, g.node? entry.choice = some node ∧ node.eclass = c ∧ entry.choice ∈ batch ∧
      plan.evaluate table entry.choice node = .candidate entry ∧
      ∀ d ∈ node.children, table.Covers d := by
  obtain ⟨id, taken, owner, evaluated⟩ := exists_of_winner won
  obtain ⟨node, stored, candidate⟩ := evaluateIn_eq_candidate.1 evaluated
  obtain rfl := careful.chooses candidate
  exact ⟨node, stored, EGraph.owner_of_node? stored ▸ owner, taken, candidate,
    careful.ready candidate⟩

/-- What every candidate has, where all entries of the table it is weighed against have it, holds of every entry of
every run. -/
theorem Reached.forall_entries (careful : plan.Careful) (reached : plan.Reached g r)
    {Q : ClassId → Entry α β → Prop}
    (each : ∀ {table : Table α β} {node entry}, (∀ c e, TreeMap.get? table c = some e → Q c e) →
      g.node? entry.choice = some node → plan.evaluate table entry.choice node = .candidate entry →
      Q node.eclass entry) : ∀ c entry, TreeMap.get? r.table c = some entry → Q c entry := by
  apply reached.table_induction (P := fun table => ∀ c entry, TreeMap.get? table c = some entry → Q c entry)
  · intro c entry held
    cases held
  intro table batch ih c entry held
  obtain won | ⟨_, old⟩ := Table.entry_of_update held
  · obtain ⟨node, stored, rfl, _, candidate, _⟩ := careful.node_of_winner won
    exact each ih stored candidate
  · exact ih c entry old

theorem Reached.founded (careful : plan.Careful) (reached : plan.Reached g r) :
    Founded g r.table := by
  apply reached.table_induction (P := Founded g)
  · intro c entry h
    cases h
  intro table batch ih c entry h
  obtain won | ⟨_, old⟩ := Table.entry_of_update h
  · obtain ⟨node, stored, owner, _, _, below⟩ := careful.node_of_winner won
    exact ⟨node, stored, owner, fun d hd => (below d hd).update _⟩
  · obtain ⟨node, stored, owner, below⟩ := ih c entry old
    exact ⟨node, stored, owner, fun d hd => (below d hd).update _⟩

/-- The node has nothing better to offer than what its class has. -/
def Spent (plan : Plan α β) (g : EGraph α) (table : Table α β) (id : NodeId) : Prop :=
  ∀ entry, plan.evaluateIn g table id = .candidate entry →
    Cost.improves entry.total (table.total? id.owner) = false

section Ordered
variable [OrderedCost α]

/-- What a node comes to after a round, none of whose winners is a child of it, it came to before. -/
theorem Careful.evaluateIn_of_tableAfter (careful : plan.Careful) {table : Table α β}
    {batch : List NodeId} {id : NodeId} {entry : Entry α β}
    (still : ∀ c ∈ (plan.winners g table batch).keys, id ∉ g.parents c)
    (h : plan.evaluateIn g (plan.tableAfter g table batch) id = .candidate entry) :
    plan.evaluateIn g table id = .candidate entry := by
  obtain ⟨node, stored, candidate⟩ := evaluateIn_eq_candidate.1 h
  refine evaluateIn_eq_candidate.2 ⟨node, stored, careful.steady ?_ ?_ candidate⟩
  · intro c child
    have lost : (plan.winners g table batch).get? c = none :=
      OrderedMap.get?_eq_none_iff.2 fun won =>
        still c won (EGraph.mem_parents.2 ⟨node, stored, child⟩)
    rw [tableAfter, Table.get?_update, lost, Option.none_or]
  · intro a better
    by_contra worse
    have settled := (lowers_winners plan g table batch _).not_improves (Bool.eq_false_iff.2 worse)
    exact Bool.eq_false_iff.1 settled better

/-- The step of `Reached.spent`: nodes of the batch have just contended, and of the others those are
queued that a winner concerns. -/
theorem Careful.spent_tableAfter (careful : plan.Careful) {table : Table α β} {batch : List NodeId}
    {id : NodeId} (still : ∀ c ∈ (plan.winners g table batch).keys, id ∉ g.parents c)
    (h : id ∈ batch ∨ plan.Spent g table id) : plan.Spent g (plan.tableAfter g table batch) id := by
  intro entry evaluated
  have before := careful.evaluateIn_of_tableAfter still evaluated
  obtain taken | spent := h
  · exact not_improves_of_evaluated taken before
  · exact (lowers_winners plan g table batch _).not_improves (spent entry before)

/-- A node that is not queued has nothing better to offer. Before the first pass, leaves have not been
queued yet. -/
theorem Reached.spent (careful : plan.Careful) (reached : plan.Reached g r) {id : NodeId}
    (idle : id ∉ r.queue.items)
    (met : 0 < r.pass ∨ ∀ node, g.node? id = some node → node.isLeaf = false) :
    plan.Spent g r.table id := by
  induction reached with
  | start =>
    intro entry evaluated
    obtain ⟨node, stored, candidate⟩ := evaluateIn_eq_candidate.1 evaluated
    have inner : node.isLeaf = false := (met.resolve_left (Nat.lt_irrefl 0)) node stored
    obtain ⟨c, child⟩ := List.exists_mem_of_ne_nil node.children fun none => by
      simp [Node.isLeaf, none] at inner
    have covered := careful.ready candidate c child
    simp [Table.Covers, Run.start] at covered
  | step before step ih =>
    rename_i r r'
    cases step with
    | pass =>
      rw [Run.mem_items_nextPass before.sound, not_or] at idle
      apply ih idle.1
      right
      intro node stored
      apply Bool.eq_false_iff.2
      intro leaf
      exact idle.2 ⟨node, stored, .inr leaf⟩
    | round polls busy =>
      rw [mem_items_round before.sound, not_or] at idle
      obtain ⟨untaken, unconcerned⟩ := idle
      have still : ∀ c ∈ (plan.winners g r.table (plan.batch r)).keys, id ∉ g.parents c :=
        fun c won parent => unconcerned ⟨c, won, parent⟩
      apply careful.spent_tableAfter still
      by_cases taken : id ∈ plan.batch r
      · exact .inl taken
      · exact .inr (ih (not_mem_items taken untaken) met)

/-- When a run is over, no node has anything better to offer. -/
theorem Reached.spent_of_over (careful : plan.Careful) (reached : plan.Reached g r)
    (ended : r.Over plan.passes) (some : 0 < plan.passes) (id : NodeId) :
    plan.Spent g r.table id :=
  reached.spent careful (by rw [ended.idle]; exact List.not_mem_nil)
    (.inl (Nat.lt_of_lt_of_le some ended.done))

end Ordered

end Plan

end Extraction
