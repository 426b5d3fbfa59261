import Mathlib.Algebra.BigOperators.Group.Finset.Basic
import Extraction.Proofs.Cost.Sums

/-! Multiples of exact costs, that is, sums of equal ones. Exact costs are a commutative monoid, so what holds of
sums and multiples there holds of costs. -/
namespace Extraction

variable {α : Type} [Cost α]

/-- The cost of a number of things that cost the same. -/
def Cost.times (n : Nat) (a : α) : α := Cost.sum (List.replicate n a)

/-- A sum over items is a sum over all that they may be, each as often as it is among them. -/
theorem sum_map_eq_sum_counts {κ M : Type} [DecidableEq κ] [AddCommMonoid M] {items keys : List κ}
    (nodup : keys.Nodup) (inside : ∀ k ∈ items, k ∈ keys) (f : κ → M) :
    (items.map f).sum = (keys.map fun k => items.count k • f k).sum := by
  rw [Finset.sum_list_map_count, ← List.sum_toFinset _ nodup]
  refine Finset.sum_subset ?_ ?_
  · exact fun k mem => List.mem_toFinset.2 (inside k (List.mem_toFinset.1 mem))
  · intro k _ out
    rw [List.count_eq_zero_of_not_mem (mt List.mem_toFinset.2 out), zero_nsmul]

namespace ExactCost
variable [ExactCost α]

variable (α) in
/-- Exact costs as a commutative monoid. -/
@[reducible] def addCommMonoid : AddCommMonoid α where
  add_assoc := ExactCost.add_assoc
  zero_add := zero_add
  add_zero := add_zero
  add_comm := ExactCost.add_comm
  nsmul := nsmulRec

theorem sum_eq_sum (costs : List α) :
    letI := addCommMonoid α
    Cost.sum costs = costs.sum := by
  induction costs with
  | nil => exact sum_nil
  | cons a costs ih => rw [sum_cons, ih, List.sum_cons]

theorem times_eq_nsmul (n : Nat) (a : α) :
    letI := addCommMonoid α
    Cost.times n a = n • a := by
  let := addCommMonoid α
  rw [Cost.times, sum_eq_sum, List.sum_replicate]

theorem times_zero (a : α) : Cost.times 0 a = 0 := sum_nil

theorem times_succ (n : Nat) (a : α) : Cost.times (n + 1) a = a + Cost.times n a := by
  rw [Cost.times, List.replicate_succ, sum_cons]
  rfl

theorem not_times_lt {n : Nat} (some : 0 < n) (a : α) : ¬ Cost.times n a < a := by
  obtain ⟨m, rfl⟩ := Nat.exists_eq_succ_of_ne_zero some.ne'
  rw [times_succ]
  exact OrderedCost.add_not_lt_left (ExactCost.nonnegative _) (ExactCost.nonnegative _)

end ExactCost

namespace StrictCost
variable [StrictCost α]

theorem lt_of_not_lt_of_ne {a b : α} (notLess : ¬ b < a) (other : a ≠ b) : a < b := by
  by_contra notLess'
  exact other (ExactCost.eq_of_not_lt notLess' notLess)

theorem eq_and_eq_of_add_eq {a b x y : α} (first : ¬ b < a) (second : ¬ y < x)
    (same : a + x = b + y) : a = b ∧ x = y := by
  -- A greater summand on one side would make that side greater.
  have right : x = y := by
    by_contra other
    have less := add_lt_add_left b (lt_of_not_lt_of_ne second other)
    rw [← same] at less
    exact ExactCost.not_add_lt_add first (OrderedCost.irrefl x) less
  subst right
  refine ⟨?_, rfl⟩
  by_contra other
  have less := add_lt_add_left x (lt_of_not_lt_of_ne first other)
  rw [ExactCost.add_comm x, ExactCost.add_comm x, same] at less
  exact OrderedCost.irrefl _ less

/-- Sums of which one is summand by summand no greater are the same only if the summands are. -/
theorem sum_map_eq_iff {κ : Type} {f f' : κ → α} {items : List κ}
    (bounded : ∀ k ∈ items, ¬ f' k < f k) :
    Cost.sum (items.map f) = Cost.sum (items.map f') ↔ ∀ k ∈ items, f k = f' k := by
  induction items with
  | nil => simp
  | cons k items ih =>
    obtain ⟨first, others⟩ := List.forall_mem_cons.1 bounded
    have rest : ¬ Cost.sum (items.map f') < Cost.sum (items.map f) := by
      apply ExactCost.not_sum_lt_sum
      rw [List.forall₂_map_left_iff, List.forall₂_map_right_iff, List.forall₂_same]
      exact others
    rw [List.forall_mem_cons, ← ih others, List.map_cons, List.map_cons, ExactCost.sum_cons,
      ExactCost.sum_cons]
    constructor
    · exact eq_and_eq_of_add_eq first rest
    · rintro ⟨same, same'⟩
      rw [same, same']

/-- Several things cost as much as one only if there is one or they are free. -/
theorem eq_times_iff {n : Nat} (some : 0 < n) (a : α) : a = Cost.times n a ↔ (1 < n → a = 0) := by
  obtain ⟨m, rfl⟩ := Nat.exists_eq_succ_of_ne_zero some.ne'
  rw [Nat.succ_eq_add_one, ExactCost.times_succ]
  have free : a = a + Cost.times m a ↔ Cost.times m a = 0 := by
    constructor
    · intro same
      have sum : a + 0 = a + Cost.times m a := (ExactCost.add_zero a).trans same
      exact (eq_and_eq_of_add_eq (OrderedCost.irrefl a) (ExactCost.nonnegative _).2 sum).2.symm
    · intro free
      rw [free, ExactCost.add_zero]
  rw [free]
  cases m with
  | zero => simp [ExactCost.times_zero]
  | succ m =>
    rw [forall_prop_of_true (by omega)]
    constructor
    · intro none
      by_contra other
      have positive := lt_of_not_lt_of_ne (ExactCost.nonnegative a).2 (Ne.symm other)
      rw [← none] at positive
      exact ExactCost.not_times_lt (Nat.succ_pos m) a positive
    · rintro rfl
      let := ExactCost.addCommMonoid α
      rw [ExactCost.times_eq_nsmul, nsmul_zero]

end StrictCost

end Extraction
