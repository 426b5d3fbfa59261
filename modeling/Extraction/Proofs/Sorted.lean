import Mathlib.Data.List.Sort
import Std.Data.TreeSet

/-! Sorting by a lawful order. Lists that are rearrangements of each other are sorted alike. A sorted list falls
into runs of equal elements, and a list of pairs that ascends strictly is the list of runs of what it expands to. -/
namespace Extraction
open Std

variable {κ : Type}

section Sorting
variable [Ord κ] [TransOrd κ]

theorem isLE_total (a b : κ) : ((compare a b).isLE || (compare b a).isLE) = true := by
  have turned : compare b a = (compare a b).swap := OrientedCmp.eq_swap
  rw [turned]
  cases compare a b <;> rfl

theorem pairwise_mergeSort (xs : List κ) :
    (xs.mergeSort fun a b => (compare a b).isLE).Pairwise fun a b => (compare a b).isLE = true :=
  List.pairwise_mergeSort (fun _ _ _ => TransCmp.isLE_trans) isLE_total xs

variable [LawfulEqOrd κ] {xs ys : List κ}

/-- There is one way to sort a list. -/
theorem mergeSort_eq_of_pairwise (same : xs.Perm ys)
    (sorted : ys.Pairwise fun a b => (compare a b).isLE = true) :
    xs.mergeSort (fun a b => (compare a b).isLE) = ys := by
  refine List.Perm.eq_of_pairwise (fun a b _ _ le le' => ?_) (pairwise_mergeSort xs) sorted
    ((List.mergeSort_perm xs _).trans same)
  exact LawfulEqCmp.eq_of_compare (OrientedCmp.isLE_antisymm le le')

theorem mergeSort_eq_of_perm (same : xs.Perm ys) :
    xs.mergeSort (fun a b => (compare a b).isLE) = ys.mergeSort fun a b => (compare a b).isLE :=
  mergeSort_eq_of_pairwise (same.trans (List.mergeSort_perm ys _).symm) (pairwise_mergeSort ys)

end Sorting

/-- Each element of a list of pairs as often as it is counted there. -/
def expand (counts : List (κ × Nat)) : List κ := counts.flatMap fun p => List.replicate p.2 p.1

/-- Distinct elements, each with a count of its own, expand to as many of each as are counted. -/
theorem count_expand [DecidableEq κ] (f : κ → Nat) {xs : List κ} (distinct : xs.Nodup) (x : κ) :
    (expand (xs.map fun y => (y, f y))).count x = if x ∈ xs then f x else 0 := by
  induction xs with
  | nil => rfl
  | cons y xs ih =>
    obtain ⟨new, distinct⟩ := List.nodup_cons.1 distinct
    have others := ih distinct
    rw [expand] at others ⊢
    rw [List.map_cons, List.flatMap_cons, List.count_append, others, List.count_replicate]
    by_cases same : y = x
    · subst same
      simp [new]
    · simp [same, Ne.symm same]

/-- What ascends strictly expands to a sorted list. -/
theorem pairwise_expand [Ord κ] [TransOrd κ] {counts : List (κ × Nat)}
    (ascends : counts.Pairwise fun p q => compare p.1 q.1 = .lt) :
    (expand counts).Pairwise fun a b => (compare a b).isLE = true := by
  refine List.pairwise_flatMap.2 ⟨fun p _ => ?_, ascends.imp fun {p q} lt a ha b hb => ?_⟩
  · exact List.pairwise_replicate.2 (.inr ReflCmp.isLE_rfl)
  · rw [List.eq_of_mem_replicate ha, List.eq_of_mem_replicate hb, lt]
    rfl

section Runs
variable [DecidableEq κ]

/-- The runs of a list behind `n` times `x`. -/
def runsFrom (x : κ) (n : Nat) : List κ → List (κ × Nat)
  | [] => [(x, n)]
  | y :: ys => if y = x then runsFrom x (n + 1) ys else (x, n) :: runsFrom y 1 ys

/-- The runs of equal elements of a list, each with its length. -/
def runs : List κ → List (κ × Nat)
  | [] => []
  | x :: xs => runsFrom x 1 xs

theorem runsFrom_replicate (x : κ) (n m : Nat) (ys : List κ) :
    runsFrom x n (List.replicate m x ++ ys) = runsFrom x (n + m) ys := by
  induction m generalizing n with
  | zero => rfl
  | succ m ih =>
    rw [List.replicate_succ, List.cons_append, runsFrom, if_pos rfl, ih, Nat.add_right_comm, Nat.add_assoc]

/-- What is counted falls into the runs that are counted, where neighbours differ. -/
theorem runsFrom_expand {x : κ} {n : Nat} {counts : List (κ × Nat)}
    (apart : ((x, n) :: counts).IsChain fun p q => p.1 ≠ q.1) (counted : ∀ p ∈ counts, 0 < p.2) :
    runsFrom x n (expand counts) = (x, n) :: counts := by
  induction counts generalizing x n with
  | nil => rfl
  | cons p counts ih =>
    obtain ⟨y, m⟩ := p
    obtain ⟨differ, apart⟩ := List.isChain_cons_cons.1 apart
    obtain ⟨pos, others⟩ := List.forall_mem_cons.1 counted
    obtain ⟨m, rfl⟩ := Nat.exists_eq_succ_of_ne_zero (Nat.ne_of_gt pos)
    have next := runsFrom_replicate y 1 m (expand counts)
    rw [Nat.add_comm, ih apart others] at next
    rw [expand, List.flatMap_cons, List.replicate_succ, List.cons_append, runsFrom, if_neg differ.symm]
    exact congrArg _ next

theorem runs_expand {counts : List (κ × Nat)} (apart : counts.IsChain fun p q => p.1 ≠ q.1)
    (counted : ∀ p ∈ counts, 0 < p.2) : runs (expand counts) = counts := by
  cases counts with
  | nil => rfl
  | cons p counts =>
    obtain ⟨x, n⟩ := p
    obtain ⟨pos, others⟩ := List.forall_mem_cons.1 counted
    obtain ⟨n, rfl⟩ := Nat.exists_eq_succ_of_ne_zero (Nat.ne_of_gt pos)
    rw [expand, List.flatMap_cons, List.replicate_succ, List.cons_append, runs, runsFrom_replicate, Nat.add_comm]
    exact runsFrom_expand apart others

end Runs

end Extraction
