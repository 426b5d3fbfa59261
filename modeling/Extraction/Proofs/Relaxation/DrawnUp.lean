import Extraction.Proofs.Relaxation.BillTotals
import Extraction.Proofs.Relaxation.Evaluation

/-! What a candidate of an evaluation by bills is made of. Its bill is the union of the bills of the children and
the class of the node; it comes to no more than the cost of the node and the totals of the distinct children,
and to as much where no two of their bills list the same class. -/
namespace Extraction
open Std

variable {α : Type} [Cost α]

namespace Plan

/-- The bills of different children list different classes. -/
def Apart (table : Table α (Bill α)) (node : Node α) : Prop :=
  ∀ c ∈ node.children, ∀ c' ∈ node.children, ∀ below below' : Entry α (Bill α),
    TreeMap.get? table c = some below → TreeMap.get? table c' = some below' →
    ∀ d ∈ below.detail, d ∈ below'.detail → c = c'

end Plan

/-- What the cost of a node and the totals of its distinct children come to. -/
def Table.spentAbove (table : Table α (Bill α)) (node : Node α) : α :=
  node.cost + Cost.sum (node.distinctChildren.filterMap table.total?)

/-- The entry is drawn up for the node from the entries of its children. -/
structure Entry.DrawnUp (table : Table α (Bill α)) (id : NodeId) (node : Node α)
    (entry : Entry α (Bill α)) : Prop where
  choice : entry.choice = id
  own : entry.detail[node.eclass]? = some node.cost
  lists : ∀ d, d ∈ entry.detail ↔ d = node.eclass ∨ ∃ c ∈ node.children,
    ∃ below : Entry α (Bill α), TreeMap.get? table c = some below ∧ d ∈ below.detail
  charges : ∀ (d : ClassId) x, d ≠ node.eclass → entry.detail[d]? = some x → ∃ c ∈ node.children,
    ∃ below : Entry α (Bill α), TreeMap.get? table c = some below ∧ below.detail[d]? = some x
  total : entry.total = entry.detail.total
  bounded : ¬ table.spentAbove node < entry.total
  whole : Plan.Apart table node → entry.total = table.spentAbove node

namespace Plan
variable {prune : Bool} {table : Table α (Bill α)} {id : NodeId} {node : Node α}
  {entry : Entry α (Bill α)} {below : Bill α} {g : EGraph α} [ExactCost α]

omit [ExactCost α] in
/-- The bills of the children come to the totals of their entries. -/
theorem map_total_below (totalled : Totalled table) (classes : List ClassId) :
    ((classes.filterMap table.get?).map Entry.detail).map Bill.total =
      classes.filterMap table.total? := by
  rw [List.map_map, List.map_filterMap]
  apply List.filterMap_congr
  intro c _
  rw [Table.total?]
  cases held : table.get? c with
  | none => rfl
  | some below => exact congrArg some (totalled c below held).symm

omit [Cost α] [ExactCost α] in
/-- If the bills of different children have no class in common, no two of the bills gathered from have. -/
theorem pairwise_below (apart : Apart table node) :
    ((node.distinctChildren.filterMap table.get?).map Entry.detail).Pairwise
      fun bill other => ∀ d ∈ bill, d ∉ other := by
  rw [List.pairwise_map, List.pairwise_filterMap]
  refine (nodup_distinctClasses node.children).imp_of_mem ?_
  intro c c' mem mem' other below held below' held' d listed listed'
  exact other (apart c (mem_distinctClasses.1 mem) c' (mem_distinctClasses.1 mem') below below' held
    held' d listed listed')

omit [Cost α] [ExactCost α] in
theorem mem_below {bill : Bill α} :
    bill ∈ (node.distinctChildren.filterMap table.get?).map Entry.detail ↔
      ∃ c ∈ node.children, ∃ below, TreeMap.get? table c = some below ∧ below.detail = bill := by
  simp only [List.mem_map, List.mem_filterMap, Node.distinctChildren, mem_distinctClasses]
  constructor
  · rintro ⟨below, ⟨c, child, held⟩, rfl⟩
    exact ⟨c, child, below, held, rfl⟩
  · rintro ⟨c, child, below, held, rfl⟩
    exact ⟨below, ⟨c, child, held⟩, rfl⟩

theorem Gathers.not_sum_lt (gathers : Gathers table node below) (totalled : Totalled table) :
    ¬ Cost.sum (node.distinctChildren.filterMap table.total?) < below.total := by
  rw [← map_total_below totalled]
  apply Bill.not_sum_total_lt
  intro d x charge
  obtain ⟨c, child, entry, held, charge'⟩ := gathers.charges d x charge
  exact ⟨entry.detail, mem_below.2 ⟨c, child, entry, held, rfl⟩, charge'⟩

theorem Gathers.total_eq_sum (gathers : Gathers table node below) (totalled : Totalled table)
    (apart : Apart table node) :
    below.total = Cost.sum (node.distinctChildren.filterMap table.total?) := by
  rw [← map_total_below totalled]
  refine Bill.total_eq_sum_total (pairwise_below apart) fun d x => ⟨?_, ?_⟩
  · intro charge
    obtain ⟨c, child, entry, held, charge'⟩ := gathers.charges d x charge
    exact ⟨entry.detail, mem_below.2 ⟨c, child, entry, held, rfl⟩, charge'⟩
  · rintro ⟨bill, among, charge⟩
    obtain ⟨c, child, entry, held, rfl⟩ := mem_below.1 among
    obtain ⟨entry', held', all⟩ := gathers.lists c child
    obtain rfl := Option.some.inj (held.symm.trans held')
    have listed : d ∈ entry.detail := Bill.mem_iff_exists.2 ⟨x, charge⟩
    -- What is gathered lists the class as well, and only this child can charge for it.
    obtain ⟨y, gathered⟩ := Bill.mem_iff_exists.1 (all d listed)
    obtain ⟨c', child', entry', held', charge'⟩ := gathers.charges d y gathered
    obtain rfl := apart c child c' child' entry entry' held held' d listed
      (Bill.mem_iff_exists.2 ⟨y, charge'⟩)
    obtain rfl := Option.some.inj (held.symm.trans held')
    rw [gathered, ← charge', charge]

/-- What an evaluation takes for a candidate is drawn up from the entries of the children. -/
theorem drawnUp_of_candidate (totalled : Totalled table) (stored : g.node? id = some node)
    (candidate : billEvaluation prune table id node = .candidate entry) :
    entry.DrawnUp table id node := by
  obtain ⟨below, gathers, new, drawn⟩ := exists_gathers candidate
  have careful : (byBills (α := α) prune 1 .single).Careful := careful_byBills
  have total := total_of_candidate stored candidate
  have spent : entry.total = node.cost + below.total := by rw [total, drawn, Bill.total_insert new]
  refine ⟨careful.chooses candidate, charge_self candidate, ?_, fun d x other charge =>
    charge_below candidate other charge, total, ?_, ?_⟩
  · intro d
    constructor
    · intro listed
      by_cases same : d = node.eclass
      · exact .inl same
      · obtain ⟨x, charge⟩ := Bill.mem_iff_exists.1 listed
        obtain ⟨c, child, below, held, charge'⟩ := charge_below candidate same charge
        exact .inr ⟨c, child, below, held, Bill.mem_iff_exists.2 ⟨x, charge'⟩⟩
    · rintro (rfl | ⟨c, child, below, held, listed⟩)
      · exact Bill.mem_iff_exists.2 ⟨_, charge_self candidate⟩
      · exact lists_below candidate child held listed
  · rw [spent]
    exact ExactCost.not_add_lt_add (OrderedCost.irrefl _) (gathers.not_sum_lt totalled)
  · intro apart
    rw [spent, gathers.total_eq_sum totalled apart, Table.spentAbove]

end Plan

end Extraction
