import Extraction.Proofs.Relaxation.Evaluation

/-! The totals of bills. Whatever a run charges for a class is the cost of one of its nodes, so all totals
of a run are on a list of as many as there are ways to leave out classes and pick a node for each other;
this is why runs by bills come to an end. -/
namespace Extraction
open Std

variable {α : Type} [Cost α]

/-- A node of the class has this cost. -/
def EGraph.Prices (g : EGraph α) (c : ClassId) (x : α) : Prop :=
  ∃ id node, g.node? id = some node ∧ node.eclass = c ∧ node.cost = x

namespace Plan

/-- Every bill of the table charges covered classes, each the cost of one of its nodes. -/
def Charged (g : EGraph α) (table : Table α (Bill α)) : Prop :=
  ∀ c entry, TreeMap.get? table c = some entry →
    ∀ (d : ClassId) (x : α), entry.detail[d]? = some x → g.Prices d x ∧ table.Covers d

variable {prune : Bool} {passes : Nat} {pace : Pace} {g : EGraph α} {r : Run α (Bill α)}

theorem charges_of_candidate {table : Table α (Bill α)} (charged : Charged g table) {id : NodeId}
    {node : Node α} {entry : Entry α (Bill α)} (stored : g.node? id = some node)
    (h : billEvaluation prune table id node = .candidate entry) {d : ClassId} {x : α}
    (charge : entry.detail[d]? = some x) :
    g.Prices d x ∧ (d = node.eclass ∨ table.Covers d) := by
  by_cases same : d = node.eclass
  · subst same
    have own := Option.some.inj ((charge_self h).symm.trans charge)
    exact ⟨⟨id, node, stored, rfl, own⟩, .inl rfl⟩
  · obtain ⟨c, _, below, held, charge'⟩ := charge_below h same charge
    exact (charged c below held d x charge').imp_right .inr

theorem Reached.charged (reached : (byBills prune passes pace).Reached g r) : Charged g r.table := by
  apply reached.table_induction (P := Charged g)
  · intro c entry h
    cases h
  intro table batch ih c entry held d x charge
  obtain won | ⟨_, old⟩ := Table.entry_of_update held
  · obtain ⟨node, stored, rfl, _, candidate, _⟩ := careful_byBills.node_of_winner won
    obtain ⟨price, rfl | covered⟩ := charges_of_candidate ih stored candidate charge
    · exact ⟨price, Table.covers_iff.2 ⟨entry, held⟩⟩
    · exact ⟨price, covered.update _⟩
  · obtain ⟨price, covered⟩ := ih c entry old d x charge
    exact ⟨price, covered.update _⟩

/-- A node of a class that has no realization yet realizes it once its children have one. -/
theorem exists_candidate_byBills (reached : (byBills prune passes pace).Reached g r) {id : NodeId}
    {node : Node α} (below : ∀ c ∈ node.children, r.table.Covers c)
    (fresh : ¬ r.table.Covers node.eclass) :
    ∃ entry, billEvaluation prune r.table id node = .candidate entry := by
  refine (billEvaluation_of_covered prune id below).2 ?_
  rintro (self | ⟨_, held, listed⟩ | ⟨_, _, _, own, _⟩)
  · exact fresh (below _ self)
  · obtain ⟨x, charge⟩ := Bill.mem_iff_exists.1 listed
    exact fresh (reached.charged _ _ held _ x charge).2
  · rw [Table.total?_eq_none fresh] at own
    cases own

end Plan

namespace EGraph

/-- The bills that leave out some of the classes and charge the cost of a node for each other. -/
def bills (g : EGraph α) : List ClassId → List (Bill α)
  | [] => [∅]
  | c :: classes => (g.bills classes).flatMap fun bill =>
    bill :: (g.membersOf c).map fun id =>
      match g.node? id with
      | some node => bill.insert c node.cost
      | none => bill

theorem length_bills (g : EGraph α) (classes : List ClassId) (a : Nat) :
    (classes.map fun c => (g.membersOf c).length + 1).foldl (· * ·) a =
      a * (g.bills classes).length := by
  induction classes generalizing a with
  | nil => simp [bills]
  | cons c classes ih =>
    simp only [List.map_cons, List.foldl_cons, ih, bills, List.length_flatMap, List.length_cons,
      List.length_map, List.map_const', List.sum_replicate, nsmul_eq_mul,
      Nat.cast_id]
    rw [Nat.mul_assoc, Nat.mul_comm (_ + 1)]

/-- Every bill that charges nothing but costs of nodes is on the list. -/
theorem exists_bill (g : EGraph α) {bill : Bill α}
    (priced : ∀ (d : ClassId) (x : α), bill[d]? = some x → g.Prices d x) (classes : List ClassId) :
    ∃ other ∈ g.bills classes, ∀ d : ClassId, other[d]? = if d ∈ classes then bill[d]? else none := by
  induction classes with
  | nil => exact ⟨∅, List.mem_singleton_self _, fun d => by simp⟩
  | cons c classes ih =>
    obtain ⟨other, mem, same⟩ := ih
    cases charge : bill[c]? with
    | none =>
      refine ⟨other, List.mem_flatMap.2 ⟨other, mem, List.mem_cons_self⟩, ?_⟩
      intro d
      rw [same d]
      by_cases first : d = c
      · simp [first, charge]
      · simp [first]
    | some x =>
      obtain ⟨id, node, stored, owner, rfl⟩ := priced c x charge
      refine ⟨other.insert c node.cost, List.mem_flatMap.2 ⟨other, mem, List.mem_cons_of_mem _
        (List.mem_map.2 ⟨id, mem_membersOf.2 ⟨node, stored, owner⟩, by rw [stored]⟩)⟩, fun d => ?_⟩
      simp only [TreeMap.getElem?_insert, LawfulEqCmp.compare_eq_iff_eq, same d]
      by_cases first : d = c
      · simp [first, charge]
      · simp [first, Ne.symm first]

end EGraph

namespace Plan
variable [OrderedCost α] {prune : Bool} {passes : Nat} {pace : Pace} {g : EGraph α}
  {r : Run α (Bill α)}

theorem total_of_candidate {table : Table α (Bill α)} {id : NodeId} {node : Node α}
    {entry : Entry α (Bill α)} (stored : g.node? id = some node)
    (h : billEvaluation prune table id node = .candidate entry) :
    entry.total = entry.detail.total := by
  obtain ⟨_, rfl⟩ | ⟨_, children, _, _, _, _, rfl⟩ := billEvaluation_eq_candidate.1 h
  · exact (OrderedCost.emptySum_add (EGraph.nonnegative_cost stored)).symm
  · rfl

theorem lists_byBills (prune : Bool) (passes : Nat) (pace : Pace) (g : EGraph α) :
    (byBills prune passes pace).Lists g ((g.bills g.classes).map Bill.total) := by
  intro r id entry reached evaluated
  obtain ⟨node, stored, candidate⟩ := evaluateIn_eq_candidate.1 evaluated
  have priced : ∀ (d : ClassId) (x : α), entry.detail[d]? = some x → g.Prices d x :=
    fun d x charge => (charges_of_candidate reached.charged stored candidate charge).1
  obtain ⟨other, mem, same⟩ := g.exists_bill priced g.classes
  refine List.mem_map.2 ⟨other, mem, ?_⟩
  rw [total_of_candidate stored candidate]
  apply Bill.total_congr
  intro d
  rw [same d]
  split
  · rfl
  · rename_i outside
    cases charge : entry.detail[d]? with
    | none => rfl
    | some x =>
      obtain ⟨id, node, stored, owner, _⟩ := priced d x charge
      exact absurd (EGraph.mem_classes.2 ⟨id, node, stored, owner⟩) outside

/-- A run by bills is over within the step limit. -/
theorem over_byBills (prune : Bool) (passes : Nat) {pace : Pace} (size : 0 < pace.size)
    (g : EGraph α) : ((byBills prune passes pace).wholeRun g).Over passes := by
  have few : ((g.bills g.classes).map Bill.total).length ≤ g.ways := by
    rw [List.length_map, EGraph.ways, EGraph.length_bills, Nat.one_mul]
  exact over_of_lists (lists_byBills prune passes pace g) size few

end Plan

end Extraction
