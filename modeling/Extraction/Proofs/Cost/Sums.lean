import Extraction.Proofs.Collections
import Extraction.Proofs.Cost.Laws
import Mathlib.Data.List.Perm.Subperm

/-! Sums of costs. Folding costs keeps their order and stays above each of them; sums that are exact do
not depend on the order of their summands. -/
namespace Extraction
open Cost (Nonnegative)

variable {α : Type} [Cost α]

section Folds
variable {f : α → α → α}

theorem nonnegative_foldl (closed : ∀ {a b}, Nonnegative a → Nonnegative b → Nonnegative (f a b))
    {below : List α} {a : α} (ha : Nonnegative a) (hs : ∀ b ∈ below, Nonnegative b) :
    Nonnegative (below.foldl f a) := by
  induction below generalizing a with
  | nil => exact ha
  | cons b below ih =>
    obtain ⟨hb, hs⟩ := List.forall_mem_cons.1 hs
    exact ih (closed ha hb) hs

variable [OrderedCost α]

theorem nonnegative_sum {costs : List α} (some : costs ≠ []) (hs : ∀ a ∈ costs, Nonnegative a) :
    Nonnegative (Cost.sum costs) := by
  cases costs with
  | nil => exact absurd rfl some
  | cons a costs =>
    obtain ⟨ha, hs⟩ := List.forall_mem_cons.1 hs
    rw [Cost.sum, List.foldl_cons, OrderedCost.emptySum_add ha]
    exact nonnegative_foldl OrderedCost.nonnegative_add ha hs

theorem not_foldl_lt_first (closed : ∀ {a b}, Nonnegative a → Nonnegative b → Nonnegative (f a b))
    (left : ∀ {a b}, Nonnegative a → Nonnegative b → ¬ f a b < a) {below : List α} {a : α}
    (ha : Nonnegative a) (hs : ∀ b ∈ below, Nonnegative b) : ¬ below.foldl f a < a := by
  induction below generalizing a with
  | nil => exact OrderedCost.irrefl a
  | cons b below ih =>
    obtain ⟨hb, hs⟩ := List.forall_mem_cons.1 hs
    have whole := nonnegative_foldl closed (closed ha hb) hs
    exact OrderedCost.not_lt_trans ha (closed ha hb) whole (left ha hb) (ih (closed ha hb) hs)

/-- What is folded in is never above the whole. -/
theorem not_foldl_lt_mem (closed : ∀ {a b}, Nonnegative a → Nonnegative b → Nonnegative (f a b))
    (left : ∀ {a b}, Nonnegative a → Nonnegative b → ¬ f a b < a)
    (right : ∀ {a b}, Nonnegative a → Nonnegative b → ¬ f a b < b) {below : List α} {a b : α}
    (ha : Nonnegative a) (hs : ∀ b ∈ below, Nonnegative b) (hb : b ∈ below) :
    ¬ below.foldl f a < b := by
  induction below generalizing a with
  | nil => cases hb
  | cons c below ih =>
    obtain ⟨hc, others⟩ := List.forall_mem_cons.1 hs
    obtain rfl | later := List.mem_cons.1 hb
    · have whole := nonnegative_foldl closed (closed ha hc) others
      have rest := not_foldl_lt_first closed left (closed ha hc) others
      exact OrderedCost.not_lt_trans hc (closed ha hc) whole (right ha hc) rest
    · exact ih (closed ha hc) others later

omit [OrderedCost α] in
theorem not_foldl_lt_foldl
    (closed : ∀ {a b}, Nonnegative a → Nonnegative b → Nonnegative (f a b))
    (mono : ∀ {a b c d}, Nonnegative a → Nonnegative b → Nonnegative c → Nonnegative d →
      ¬ c < a → ¬ d < b → ¬ f c d < f a b) {below below' : List α}
    (pairs : List.Forall₂ (fun a b => ¬ b < a) below below') {a b : α} (ha : Nonnegative a)
    (hb : Nonnegative b) (hs : ∀ c ∈ below, Nonnegative c) (hs' : ∀ c ∈ below', Nonnegative c)
    (first : ¬ b < a) : ¬ below'.foldl f b < below.foldl f a := by
  induction pairs generalizing a b with
  | nil => exact first
  | cons head _ ih =>
    obtain ⟨hc, hs⟩ := List.forall_mem_cons.1 hs
    obtain ⟨hd, hs'⟩ := List.forall_mem_cons.1 hs'
    exact ih (closed ha hc) (closed hb hd) hs hs' (mono ha hc hb hd first head)

end Folds

namespace ExactCost
variable [ExactCost α]

theorem not_lt_chain {a b c : α} (first : ¬ b < a) (second : ¬ c < b) : ¬ c < a :=
  OrderedCost.not_lt_trans (ExactCost.nonnegative _) (ExactCost.nonnegative _) (ExactCost.nonnegative _)
    first second

theorem not_add_lt_add {a b c d : α} (first : ¬ c < a) (second : ¬ d < b) : ¬ c + d < a + b :=
  OrderedCost.add_not_lt_add (ExactCost.nonnegative _) (ExactCost.nonnegative _)
    (ExactCost.nonnegative _) (ExactCost.nonnegative _) first second

theorem zero_add (a : α) : 0 + a = a := by
  rw [← ExactCost.emptySum_eq (α := α)]
  exact OrderedCost.emptySum_add (ExactCost.nonnegative a)

theorem add_zero (a : α) : a + 0 = a := by rw [ExactCost.add_comm, zero_add]

theorem sum_nil : Cost.sum ([] : List α) = 0 := ExactCost.emptySum_eq

theorem foldl_add (a : α) (costs : List α) : costs.foldl (· + ·) a = a + Cost.sum costs := by
  induction costs generalizing a with
  | nil => rw [sum_nil, add_zero, List.foldl_nil]
  | cons b costs ih =>
    have tail : Cost.sum (b :: costs) = b + Cost.sum costs := by
      rw [← ih b, Cost.sum, List.foldl_cons, ExactCost.emptySum_eq, zero_add]
    rw [List.foldl_cons, ih (a + b), tail, ExactCost.add_assoc]

theorem sum_cons (a : α) (costs : List α) : Cost.sum (a :: costs) = a + Cost.sum costs := by
  rw [← foldl_add, Cost.sum, List.foldl_cons, ExactCost.emptySum_eq, zero_add]

theorem sum_singleton (a : α) : Cost.sum [a] = a := by
  rw [Cost.sum, List.foldl_cons, List.foldl_nil, ExactCost.emptySum_eq, zero_add]

theorem not_sum_lt_sum {costs costs' : List α}
    (pairs : List.Forall₂ (fun a b => ¬ b < a) costs costs') : ¬ Cost.sum costs' < Cost.sum costs :=
  not_foldl_lt_foldl OrderedCost.nonnegative_add OrderedCost.add_not_lt_add pairs
    (ExactCost.nonnegative _) (ExactCost.nonnegative _) (fun a _ => ExactCost.nonnegative a)
    (fun a _ => ExactCost.nonnegative a) (OrderedCost.irrefl _)

/-- Values, none of which is below the other, have sums of which that is true. -/
theorem exists_sums {κ : Type} {f f' : κ → Option α} {keys : List κ}
    (bounded : ∀ k ∈ keys, ∃ a b, f k = some a ∧ f' k = some b ∧ ¬ a < b) :
    ∃ costs costs', keys.mapM f = some costs ∧ keys.mapM f' = some costs' ∧
      ¬ Cost.sum costs < Cost.sum costs' := by
  obtain ⟨costs, values⟩ := exists_mapM fun k mem =>
    let ⟨a, _, value, _⟩ := bounded k mem
    ⟨a, value⟩
  obtain ⟨costs', values'⟩ := exists_mapM fun k mem =>
    let ⟨_, b, _, value, _⟩ := bounded k mem
    ⟨b, value⟩
  refine ⟨costs, costs', values, values', not_sum_lt_sum ?_⟩
  apply forall₂_of_mapM values' values
  intro k mem b a value' value
  obtain ⟨a', b', first, second, notLess⟩ := bounded k mem
  obtain rfl := Option.some.inj (value.symm.trans first)
  obtain rfl := Option.some.inj (value'.symm.trans second)
  exact notLess

theorem sum_perm {costs costs' : List α} (same : costs.Perm costs') :
    Cost.sum costs = Cost.sum costs' := by
  induction same with
  | nil => rfl
  | cons a _ ih => rw [sum_cons, sum_cons, ih]
  | swap a b costs =>
    rw [sum_cons, sum_cons, sum_cons, sum_cons, ← ExactCost.add_assoc, ← ExactCost.add_assoc,
      ExactCost.add_comm b a]
  | trans _ _ ih ih' => exact ih.trans ih'

/-- Some of the costs come to no more than all of them. -/
theorem not_sum_lt_of_subperm {costs costs' : List α} (some : costs.Subperm costs') :
    ¬ Cost.sum costs' < Cost.sum costs := by
  obtain ⟨part, same, sublist⟩ := some
  rw [← sum_perm same]
  clear same
  induction sublist with
  | slnil => exact OrderedCost.irrefl _
  | cons a _ ih =>
    rw [sum_cons]
    exact not_lt_chain ih
      (OrderedCost.add_not_lt_right (ExactCost.nonnegative _) (ExactCost.nonnegative _))
  | cons_cons a _ ih =>
    rw [sum_cons, sum_cons]
    exact not_add_lt_add (OrderedCost.irrefl a) ih

theorem not_sum_map_lt_of_subperm {κ : Type} (f : κ → α) {items others : List κ}
    (some : items.Subperm others) : ¬ Cost.sum (others.map f) < Cost.sum (items.map f) := by
  obtain ⟨sorted, same, sublist⟩ := some
  exact not_sum_lt_of_subperm ⟨sorted.map f, same.map f, sublist.map f⟩

theorem sum_append (costs costs' : List α) :
    Cost.sum (costs ++ costs') = Cost.sum costs + Cost.sum costs' := by
  induction costs with
  | nil => rw [List.nil_append, sum_nil, zero_add]
  | cons a costs ih => rw [List.cons_append, sum_cons, sum_cons, ih, ExactCost.add_assoc]

/-- What adds nothing to a cost adds nothing to a higher one. -/
theorem not_lt_add_of_part {a b x : α} (idle : ¬ a < a + x) : ¬ a + b < a + b + x := by
  rw [ExactCost.add_assoc, ExactCost.add_comm b x, ← ExactCost.add_assoc]
  exact not_add_lt_add idle (OrderedCost.irrefl b)

theorem not_lt_add_sum {a : α} {costs : List α} (idle : ∀ x ∈ costs, ¬ a < a + x) :
    ¬ a < a + Cost.sum costs := by
  induction costs with
  | nil =>
    rw [sum_nil, add_zero]
    exact OrderedCost.irrefl a
  | cons x costs ih =>
    obtain ⟨first, others⟩ := List.forall_mem_cons.1 idle
    rw [sum_cons, ← ExactCost.add_assoc]
    exact not_lt_chain (not_add_lt_add first (OrderedCost.irrefl _)) (ih others)

/-- Items that are among others or add nothing to their cost come to no more than these. -/
theorem not_sum_lt_of_idle {κ : Type} {f : κ → α} {items others : List κ} (nodup : items.Nodup)
    (each : ∀ k ∈ items, k ∈ others ∨
      ¬ Cost.sum (others.map f) < Cost.sum (others.map f) + f k) :
    ¬ Cost.sum (others.map f) < Cost.sum (items.map f) := by
  classical
  let inner := items.filter fun k => k ∈ others
  let outer := items.filter fun k => !decide (k ∈ others)
  have split : Cost.sum (items.map f) = Cost.sum (inner.map f) + Cost.sum (outer.map f) := by
    rw [← sum_append, ← List.map_append]
    exact sum_perm ((List.filter_append_perm _ items).symm.map f)
  have among : ¬ Cost.sum (others.map f) < Cost.sum (inner.map f) :=
    not_sum_map_lt_of_subperm f (List.subperm_of_subset (nodup.filter _)
      fun k mem => of_decide_eq_true (List.mem_filter.1 mem).2)
  have idle : ¬ Cost.sum (others.map f) < Cost.sum (others.map f) + Cost.sum (outer.map f) := by
    apply not_lt_add_sum
    intro x mem
    obtain ⟨k, kept, rfl⟩ := List.mem_map.1 mem
    obtain ⟨item, off⟩ := List.mem_filter.1 kept
    exact (each k item).resolve_left (by simpa using off)
  rw [split]
  exact not_lt_chain (not_add_lt_add among (OrderedCost.irrefl _)) idle

end ExactCost

end Extraction
