import Extraction.Proofs.Cost.Laws
import Extraction.Relaxation.Measure
import Extraction.Selection.Measures

/-! Counting with costs. Below a limit the costs of whole numbers are ordered as the numbers are, and each is
one more than that of the number before, so the depth that costs measure is the depth in whole numbers. -/
namespace Extraction

open Cost (Nonnegative)

/-- The greatest of several numbers is bounded by what bounds each of them. -/
theorem greatest_le_iff {numbers : List Nat} {n : Nat} :
    greatest numbers ≤ n ↔ ∀ m ∈ numbers, m ≤ n := by
  have general : ∀ first, numbers.foldl max first ≤ n ↔ first ≤ n ∧ ∀ m ∈ numbers, m ≤ n := by
    induction numbers with
    | nil => simp
    | cons m numbers ih =>
      intro first
      rw [List.foldl_cons, ih, List.forall_mem_cons, Nat.max_le, and_assoc]
  rw [greatest, general, and_iff_right (Nat.zero_le n)]

theorem le_greatest {numbers : List Nat} {m : Nat} (mem : m ∈ numbers) : m ≤ greatest numbers :=
  greatest_le_iff.1 (Nat.le_refl _) m mem

theorem greatest_perm {numbers numbers' : List Nat} (same : numbers.Perm numbers') :
    greatest numbers = greatest numbers' := by
  apply Nat.le_antisymm
  · exact greatest_le_iff.2 fun _ mem => le_greatest (same.mem_iff.1 mem)
  · exact greatest_le_iff.2 fun _ mem => le_greatest (same.mem_iff.2 mem)

variable {α : Type} [Cost α]

/-- Whole numbers below `limit` as costs. -/
structure Counts (count : Nat → α) (limit : Nat) : Prop where
  nonnegative {n : Nat} : n < limit → Nonnegative (count n)
  zero : count 0 = 0
  succ {n : Nat} : n + 1 < limit → count n + 1 = count (n + 1)
  lt_iff {n m : Nat} : n < limit → m < limit → (count n < count m ↔ n < m)
  eq_of_not_lt {a : α} {n : Nat} : Nonnegative a → 0 < n → n < limit → ¬ a < count n →
    ¬ count n < a → a = count n

namespace Counts

variable {count : Nat → α} {limit : Nat}

theorem greater_eq (counts : Counts count limit) {n m : Nat} (hn : n < limit) (hm : m < limit) :
    greater (count n) (count m) = count (max n m) := by
  unfold greater
  by_cases less : m < n
  · rw [if_pos ((counts.lt_iff hm hn).2 less), Nat.max_eq_left (Nat.le_of_lt less)]
  · rw [if_neg (mt (counts.lt_iff hm hn).1 less), Nat.max_eq_right (Nat.not_lt.1 less)]

theorem foldl_greater (counts : Counts count limit) {n : Nat} {numbers : List Nat} (hn : n < limit)
    (small : ∀ m ∈ numbers, m < limit) :
    (numbers.map count).foldl greater (count n) = count (numbers.foldl max n) := by
  induction numbers generalizing n with
  | nil => rfl
  | cons m numbers ih =>
    obtain ⟨hm, others⟩ := List.forall_mem_cons.1 small
    rw [List.map_cons, List.foldl_cons, counts.greater_eq hn hm, ih (Nat.max_lt.2 ⟨hn, hm⟩) others,
      List.foldl_cons]

/-- The depth of a node above children of known depths. -/
theorem depthMeasure_eq (counts : Counts count limit) (node : Node α) {depths : List Nat}
    (room : 1 + greatest depths < limit) :
    depthMeasure node (depths.map count) = count (1 + greatest depths) := by
  have small : ∀ d ∈ depths, d < limit := by
    intro d mem
    have := le_greatest mem
    omega
  rw [Nat.add_comm 1] at room ⊢
  rw [depthMeasure, ← counts.zero, counts.foldl_greater (by omega) small]
  exact counts.succ room

end Counts

end Extraction
