import Extraction.Proofs.Cost.Sums
import Extraction.Proofs.Relaxation.Totals

/-! What bills say. A bill lists its class at the cost of the node chosen for it and all classes that the
node stands above, it charges nothing but costs of nodes of classes that are realized themselves, and it
comes to the total. All of this survives each round, although entries are replaced while older bills go on
listing them. -/
namespace Extraction
open Std

variable {α : Type} [Cost α]

namespace Bill

omit [Cost α] in
theorem values_eq (bill : Bill α) : bill.values = bill.toList.map Prod.snd := by
  have folded : bill.values = bill.foldr (fun _ x xs => x :: xs) [] := rfl
  rw [folded, TreeMap.foldr_eq_foldr_toList, List.map_eq_foldr]

omit [Cost α] in
/-- What the bill charges for all that it lists. -/
theorem mapM_keys (bill : Bill α) : bill.keys.mapM (fun d => bill[d]?) = some bill.values := by
  rw [mapM_eq_some_iff, values_eq, ← TreeMap.map_fst_toList_eq_keys, List.forall₂_map_left_iff,
    List.forall₂_map_right_iff, List.forall₂_same]
  rintro ⟨d, x⟩ mem
  exact TreeMap.mem_toList_iff_getElem?_eq_some.1 mem

omit [Cost α] in
/-- What a bill lists keeps its charge when other charges are added. -/
theorem getElem?_addMissing_of_mem {bill other : Bill α} {d : ClassId} (listed : d ∈ bill) :
    (addMissing bill other)[d]? = bill[d]? := by
  rw [addMissing, TreeMap.foldl_eq_foldl_toList]
  generalize other.toList = entries
  induction entries generalizing bill with
  | nil => rfl
  | cons e entries ih =>
    have still : d ∈ bill.insertIfNew e.1 e.2 := TreeMap.mem_insertIfNew.2 (.inr listed)
    rw [List.foldl_cons, ih still, TreeMap.getElem?_insertIfNew, if_neg]
    rw [LawfulEqCmp.compare_eq_iff_eq]
    rintro ⟨rfl, new⟩
    exact new listed

omit [Cost α] in
theorem getElem?_addMissing_of_notMem {bill other : Bill α} {d : ClassId} (off : d ∉ bill) :
    (addMissing bill other)[d]? = other[d]? := by
  have none : bill[d]? = none := TreeMap.getElem?_eq_none off
  cases charge : (addMissing bill other)[d]? with
  | some x =>
    obtain old | new := getElem?_addMissing charge
    · cases none.symm.trans old
    · exact new.symm
  | none =>
    symm
    apply TreeMap.getElem?_eq_none
    intro listed
    have merged : d ∈ addMissing bill other := mem_addMissing.2 (.inr listed)
    obtain ⟨x, held⟩ := mem_iff_exists.1 merged
    cases charge.symm.trans held

/-- A bill alone merges to what charges the same. -/
theorem total_merge_singleton (bill : Bill α) : (merge [bill]).total = bill.total := by
  apply total_congr
  intro d
  have merged : merge [bill] = addMissing bill bill := rfl
  rw [merged]
  by_cases listed : d ∈ bill
  · exact getElem?_addMissing_of_mem listed
  · exact getElem?_addMissing_of_notMem listed

section Exact
variable [ExactCost α]

/-- A bill comes to the sum of what it charges for the classes on it, in any order. -/
theorem total_eq_sum {bill : Bill α} {classes : List ClassId} {costs : List α}
    (nodup : classes.Nodup) (listed : ∀ d, d ∈ classes ↔ d ∈ bill)
    (charged : classes.mapM (fun d => bill[d]?) = some costs) : bill.total = Cost.sum costs := by
  have same : bill.keys.Perm classes := by
    apply (List.perm_ext_iff_of_nodup TreeMap.nodup_keys nodup).2
    intro d
    rw [TreeMap.mem_keys, listed]
  exact ExactCost.sum_perm (perm_of_mapM same bill.mapM_keys charged)

/-- One more class adds its charge to the total. -/
theorem total_insert {bill : Bill α} {d : ClassId} (new : d ∉ bill) (x : α) :
    Bill.total (bill.insert d x) = x + bill.total := by
  have charged : (d :: bill.keys).mapM (fun e => (bill.insert d x)[e]?) =
      some (x :: bill.values) := by
    have others : bill.keys.mapM (fun e => (bill.insert d x)[e]?) = some bill.values := by
      rw [← bill.mapM_keys]
      apply mapM_congr
      intro e mem
      have other : d ≠ e := fun same => new (same ▸ TreeMap.mem_keys.1 mem)
      simp [TreeMap.getElem?_insert, LawfulEqCmp.compare_eq_iff_eq, other]
    simp [List.mapM_cons, others]
  rw [total_eq_sum _ _ charged, ExactCost.sum_cons, total]
  · exact List.nodup_cons.2 ⟨fun mem => new (TreeMap.mem_keys.1 mem), TreeMap.nodup_keys⟩
  · intro e
    rw [List.mem_cons, TreeMap.mem_keys, TreeMap.mem_insert, LawfulEqCmp.compare_eq_iff_eq, eq_comm]

end Exact

end Bill

/-- The entry of a class says what its realization consists of and what it costs. -/
structure Entry.Itemized (g : EGraph α) (table : Table α (Bill α)) (c : ClassId)
    (entry : Entry α (Bill α)) : Prop where
  chosen : ∃ node, g.node? entry.choice = some node ∧ node.eclass = c ∧
    entry.detail[c]? = some node.cost ∧ ∀ d ∈ node.children, d ∈ entry.detail
  charges : ∀ (d : ClassId) x, entry.detail[d]? = some x → table.Covers d ∧ g.Prices d x
  total : entry.total = entry.detail.total

namespace Plan
variable {prune : Bool} {passes : Nat} {pace : Pace} {g : EGraph α} {r : Run α (Bill α)}

/-- A candidate lists what its node stands above, if the bills below list their own classes. -/
theorem lists_children {table : Table α (Bill α)} {id : NodeId} {node : Node α}
    {entry : Entry α (Bill α)} (own : ∀ c entry, TreeMap.get? table c = some entry → c ∈ entry.detail)
    (h : billEvaluation prune table id node = .candidate entry) :
    ∀ d ∈ node.children, d ∈ entry.detail := by
  intro d child
  have careful : (byBills (α := α) prune 1 .single).Careful := careful_byBills
  obtain ⟨below, held⟩ := Table.covers_iff.1 (careful.ready h d child)
  exact lists_below h child held (own d below held)

/-- Every class of the table is on its own bill at the cost of its node, together with what the node stands
above. -/
def Listed (g : EGraph α) (table : Table α (Bill α)) : Prop :=
  ∀ c entry, TreeMap.get? table c = some entry → ∃ node, g.node? entry.choice = some node ∧
    node.eclass = c ∧ entry.detail[c]? = some node.cost ∧ ∀ d ∈ node.children, d ∈ entry.detail

theorem Listed.own {table : Table α (Bill α)} (listed : Listed g table) (c : ClassId)
    (entry : Entry α (Bill α)) (held : TreeMap.get? table c = some entry) : c ∈ entry.detail := by
  obtain ⟨_, _, _, charge, _⟩ := listed c entry held
  exact Bill.mem_iff_exists.2 ⟨_, charge⟩

theorem Reached.listed (reached : (byBills prune passes pace).Reached g r) : Listed g r.table := by
  refine reached.forall_entries careful_byBills fun {_ node _} listed stored candidate => ?_
  exact ⟨node, stored, rfl, charge_self candidate, lists_children (Listed.own listed) candidate⟩

/-- Every total of the table is what its bill comes to. -/
def Totalled (table : Table α (Bill α)) : Prop :=
  ∀ c entry, TreeMap.get? table c = some entry → entry.total = entry.detail.total

section Ordered
variable [OrderedCost α]

theorem Reached.totalled (reached : (byBills prune passes pace).Reached g r) : Totalled r.table := by
  exact reached.forall_entries careful_byBills fun _ stored candidate => total_of_candidate stored candidate

/-- In every run by bills, the entries of all classes are itemized. -/
theorem Reached.itemized (reached : (byBills prune passes pace).Reached g r) {c : ClassId}
    {entry : Entry α (Bill α)} (held : TreeMap.get? r.table c = some entry) :
    entry.Itemized g r.table c :=
  ⟨reached.listed c entry held, fun d x charge => (reached.charged c entry held d x charge).symm,
    reached.totalled c entry held⟩

end Ordered

end Plan

end Extraction
