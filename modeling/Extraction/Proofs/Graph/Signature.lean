import Extraction.Proofs.Graph.KeepFirst
import Extraction.Proofs.Sorted

/-! What a signature is: the runs of equal classes in the sorted list. It ascends strictly, counts nothing that
does not occur and expands to the sorted list, so that it says what the list holds and nothing about the order. -/
namespace Extraction
open Std

theorem ClassId.value_lt_of_compare {c d : ClassId} (ascends : compare c d = .lt) : c.value < d.value :=
  Std.compare_eq_lt.1 ascends

theorem compare_distinctClasses (classes : List ClassId) :
    (distinctClasses classes).Pairwise fun c d => compare c d = .lt := TreeSet.ordered_toList

theorem compare_signature (classes : List ClassId) :
    (signature classes).Pairwise fun p q => compare p.1 q.1 = .lt :=
  List.pairwise_map.2 (compare_distinctClasses classes)

theorem count_pos_of_mem_signature {classes : List ClassId} {p : ClassId × Nat} (mem : p ∈ signature classes) :
    0 < p.2 := by
  obtain ⟨occurs, count⟩ := mem_signature.1 mem
  rw [← count]
  exact List.count_pos_iff.2 occurs

theorem perm_expand_signature (classes : List ClassId) : (expand (signature classes)).Perm classes := by
  refine List.perm_iff_count.2 fun c => ?_
  rw [signature, count_expand _ (nodup_distinctClasses classes)]
  split
  · rfl
  · rename_i absent
    rw [mem_distinctClasses] at absent
    exact (List.count_eq_zero_of_not_mem absent).symm

theorem expand_signature (classes : List ClassId) : expand (signature classes) = classes.mergeSort ClassId.le :=
  (mergeSort_eq_of_pairwise (perm_expand_signature classes).symm (pairwise_expand (compare_signature classes))).symm

theorem signature_eq_runs (classes : List ClassId) : signature classes = runs (classes.mergeSort ClassId.le) := by
  have apart : (signature classes).IsChain fun p q => p.1 ≠ q.1 := by
    refine ((compare_signature classes).imp fun {p q} lt same => ?_).isChain
    cases lt.symm.trans (compare_eq_iff_eq.2 same)
  rw [← expand_signature, runs_expand apart fun p => count_pos_of_mem_signature]

/-- Two lists have one signature exactly if one is a rearrangement of the other. A signature ascends strictly, counts
no class that does not occur, and is the list of runs of the sorted list, which is what it expands to. -/
theorem signature_sorts (classes classes' : List ClassId) :
    (signature classes = signature classes' ↔ classes'.Perm classes) ∧
      (signature classes).Pairwise (fun p q => p.1.value < q.1.value) ∧
      (∀ p ∈ signature classes, 0 < p.2) ∧
      expand (signature classes) = classes.mergeSort ClassId.le ∧
      signature classes = runs (classes.mergeSort ClassId.le) :=
  ⟨signature_eq_iff.trans List.perm_comm, (compare_signature classes).imp ClassId.value_lt_of_compare,
    fun _ => count_pos_of_mem_signature, expand_signature classes, signature_eq_runs classes⟩

end Extraction
