import Extraction.Proofs.Relaxation.Itemized
import Mathlib.Data.List.Nodup

/-! What bills come to beside each other. A bill that charges nothing but what other bills charge comes to no more
than all of them; if it charges all that they charge, and no two of them list the same class, it comes to as
much. -/
namespace Extraction
open Std

variable {α : Type} [Cost α]

namespace Bill
variable {bill below : Bill α} {bills : List (Bill α)}

omit [Cost α] in
/-- Of each class a bill has one charge at most. -/
theorem nodup_toList (bill : Bill α) : bill.toList.Nodup := by
  apply List.Nodup.of_map Prod.fst
  rw [TreeMap.map_fst_toList_eq_keys]
  exact TreeMap.nodup_keys

theorem total_eq_sum_toList (bill : Bill α) : bill.total = Cost.sum (bill.toList.map Prod.snd) := by
  rw [total, values_eq]

omit [Cost α] in
theorem mem_flatMap_toList {d : ClassId} {x : α} :
    (d, x) ∈ bills.flatMap TreeMap.toList ↔ ∃ bill ∈ bills, bill[d]? = some x := by
  simp only [List.mem_flatMap, TreeMap.mem_toList_iff_getElem?_eq_some]

omit [Cost α] in
/-- Bills that have no class in common have no charge in common. -/
theorem nodup_flatMap_toList (apart : bills.Pairwise fun bill other => ∀ d ∈ bill, d ∉ other) :
    (bills.flatMap TreeMap.toList).Nodup := by
  refine List.nodup_flatMap.2 ⟨fun bill _ => nodup_toList bill, apart.imp ?_⟩
  rintro bill other disjoint ⟨d, x⟩ charged charged'
  exact disjoint d (mem_iff_exists.2 ⟨x, TreeMap.mem_toList_iff_getElem?_eq_some.1 charged⟩)
    (mem_iff_exists.2 ⟨x, TreeMap.mem_toList_iff_getElem?_eq_some.1 charged'⟩)

variable [ExactCost α]

theorem sum_flatMap_toList (bills : List (Bill α)) :
    Cost.sum ((bills.flatMap TreeMap.toList).map Prod.snd) = Cost.sum (bills.map total) := by
  induction bills with
  | nil => rfl
  | cons bill bills ih =>
    rw [List.flatMap_cons, List.map_append, ExactCost.sum_append, ih, List.map_cons,
      ExactCost.sum_cons, total_eq_sum_toList]

/-- What charges nothing but what the bills charge comes to no more than they do. -/
theorem not_sum_total_lt (charged : ∀ (d : ClassId) x, below[d]? = some x →
    ∃ bill ∈ bills, bill[d]? = some x) : ¬ Cost.sum (bills.map total) < below.total := by
  rw [← sum_flatMap_toList, total_eq_sum_toList]
  refine ExactCost.not_sum_map_lt_of_subperm _ (below.nodup_toList.subperm ?_)
  rintro ⟨d, x⟩ mem
  exact mem_flatMap_toList.2 (charged d x (TreeMap.mem_toList_iff_getElem?_eq_some.1 mem))

/-- What charges all that the bills charge comes to as much, if no two of them list the same class. -/
theorem total_eq_sum_total (apart : bills.Pairwise fun bill other => ∀ d ∈ bill, d ∉ other)
    (charged : ∀ (d : ClassId) x, below[d]? = some x ↔ ∃ bill ∈ bills, bill[d]? = some x) :
    below.total = Cost.sum (bills.map total) := by
  rw [← sum_flatMap_toList, total_eq_sum_toList]
  refine ExactCost.sum_perm (List.Perm.map _ ?_)
  refine (List.perm_ext_iff_of_nodup below.nodup_toList (nodup_flatMap_toList apart)).2 ?_
  rintro ⟨d, x⟩
  rw [TreeMap.mem_toList_iff_getElem?_eq_some, mem_flatMap_toList, charged]

/-- A part of a bill comes to no more than the bill. -/
theorem not_total_lt_of_part (part : ∀ (d : ClassId) x, below[d]? = some x → bill[d]? = some x) :
    ¬ bill.total < below.total := by
  have charged : ∀ (d : ClassId) x, below[d]? = some x → ∃ whole ∈ [bill], whole[d]? = some x :=
    fun d x charge => ⟨bill, List.mem_singleton_self bill, part d x charge⟩
  have alone := not_sum_total_lt charged
  rwa [List.map_singleton, ExactCost.sum_singleton] at alone

end Bill

end Extraction
