import Extraction.Proofs.Cost.Least
import Extraction.Proofs.Relaxation.Measure

/-! The least measures of the classes, level by level. A level takes each node above the values of the
level before. A class that still improves does so above a child that improved one level earlier, and no
class comes twice on such a chain, so there are no more levels than classes. -/
namespace Extraction
open Std
open Cost (Nonnegative)

variable {α : Type} [Cost α]

/-- The measure of a node above classes of given values, if all of them have one. -/
def valueAbove (measure : Node α → List α → α) (level : ClassId → Option α) (node : Node α) :
    Option α :=
  (node.children.mapM level).map (measure node)

/-- The least measure of a class among nodes that are at most `k` levels high. -/
def EGraph.leastWithin (g : EGraph α) (measure : Node α → List α → α) : Nat → ClassId → Option α
  | 0, _ => none
  | k + 1, c =>
    ((g.membersOf c).map fun id =>
      (g.node? id).bind (valueAbove measure (g.leastWithin measure k))).foldl Selection.lesser
      (g.leastWithin measure k c)

variable {measure : Node α → List α → α} {g : EGraph α}

omit [Cost α] in
theorem valueAbove_eq_some {level : ClassId → Option α} {node : Node α} {a : α} :
    valueAbove measure level node = some a ↔
      ∃ below, node.children.mapM level = some below ∧ measure node below = a :=
  Option.map_eq_some_iff

namespace EGraph

/-- A class has the value of the level before or that of a node above it. -/
theorem leastWithin_succ_cases (g : EGraph α) (measure : Node α → List α → α) (k : Nat)
    (c : ClassId) :
    g.leastWithin measure (k + 1) c = g.leastWithin measure k c ∨
      ∃ id node, g.node? id = some node ∧ node.eclass = c ∧
        valueAbove measure (g.leastWithin measure k) node = g.leastWithin measure (k + 1) c := by
  obtain same | attained := Selection.foldl_lesser_mem (g.leastWithin measure k c)
    ((g.membersOf c).map fun id => (g.node? id).bind (valueAbove measure (g.leastWithin measure k)))
  · exact .inl same
  · obtain ⟨id, member, value⟩ := List.mem_map.1 attained
    obtain ⟨node, stored, owner⟩ := mem_membersOf.1 member
    rw [stored, Option.bind_some] at value
    exact .inr ⟨id, node, stored, owner, value⟩

section Ordered
variable [OrderedCost α]

theorem lowers_leastWithin_succ (g : EGraph α) (measure : Node α → List α → α) (k : Nat)
    (c : ClassId) :
    Cost.Lowers (g.leastWithin measure k c) (g.leastWithin measure (k + 1) c) :=
  Selection.lowers_foldl_lesser _ _

theorem lowers_leastWithin {j k : Nat} (le : j ≤ k) (c : ClassId) :
    Cost.Lowers (g.leastWithin measure j c) (g.leastWithin measure k c) := by
  induction le with
  | refl => exact .refl _
  | step _ ih => exact ih.trans (lowers_leastWithin_succ g measure _ c)

/-- No node above the values of a level is better than what its class has on the next one. -/
theorem not_improves_leastWithin {k : Nat} {id : NodeId} {node : Node α} {a : α}
    (stored : g.node? id = some node)
    (value : valueAbove measure (g.leastWithin measure k) node = some a) :
    Cost.improves a (g.leastWithin measure (k + 1) node.eclass) = false := by
  refine Selection.not_improves_foldl_lesser (List.mem_map.2 ⟨id, ?_, ?_⟩)
  · exact mem_membersOf.2 ⟨node, stored, rfl⟩
  · rw [stored, Option.bind_some, value]

variable (superior : Superior measure)
include superior

theorem nonnegative_leastWithin {k : Nat} {c : ClassId} {a : α}
    (h : g.leastWithin measure k c = some a) : Nonnegative a := by
  induction k generalizing c a with
  | zero => cases h
  | succ k ih =>
    obtain same | ⟨id, node, stored, _, value⟩ := leastWithin_succ_cases g measure k c
    · exact ih (same ▸ h)
    · obtain ⟨below, values, rfl⟩ := valueAbove_eq_some.1 (value.trans h)
      exact superior.nonnegative (nonnegative_cost stored)
        (forall_of_mapM values fun _ _ level => ih level)

theorem nonnegative_below {k : Nat} {node : Node α} {below : List α}
    (values : node.children.mapM (g.leastWithin measure k) = some below) :
    ∀ b ∈ below, Nonnegative b :=
  forall_of_mapM values fun _ _ level => nonnegative_leastWithin superior level

/-- What a node comes to above a level is not below zero. -/
theorem nonnegative_above {k : Nat} {id : NodeId} {node : Node α} {a : α}
    (stored : g.node? id = some node)
    (value : valueAbove measure (g.leastWithin measure k) node = some a) : Nonnegative a := by
  obtain ⟨below, values, rfl⟩ := valueAbove_eq_some.1 value
  exact superior.nonnegative (nonnegative_cost stored) (nonnegative_below superior values)

/-- A class that improves on some level has a node above a child that improved on the level before. -/
theorem exists_improved_child {k : Nat} {c : ClassId}
    (improved : g.leastWithin measure (k + 2) c ≠ g.leastWithin measure (k + 1) c) :
    ∃ a d b, g.leastWithin measure (k + 2) c = some a ∧ d ∈ g.classes ∧
      g.leastWithin measure (k + 1) d = some b ∧ ¬ a < b ∧
      g.leastWithin measure (k + 1) d ≠ g.leastWithin measure k d := by
  obtain ⟨id, node, stored, owner, value⟩ :=
    (leastWithin_succ_cases g measure (k + 1) c).resolve_left improved
  obtain same | ⟨a, level, better⟩ := lowers_leastWithin_succ g measure (k + 1) c
  · exact absurd same improved
  obtain ⟨below, values, measured⟩ := valueAbove_eq_some.1 (value.trans level)
  by_contra none
  have still : ∀ d ∈ node.children,
      g.leastWithin measure (k + 1) d = g.leastWithin measure k d := by
    intro d child
    by_contra changed
    obtain ⟨b, hb, reached⟩ := mem_mapM values child
    refine none ⟨a, d, b, level, child_mem_classes stored child, reached, ?_, changed⟩
    rw [← measured]
    exact superior.above (nonnegative_cost stored) (nonnegative_below superior values) hb
  have early : valueAbove measure (g.leastWithin measure k) node = some a := by
    rw [← level, ← value, valueAbove, valueAbove, mapM_congr still]
  have settled := not_improves_leastWithin stored early
  rw [owner, better] at settled
  cases settled

/-- The classes on a chain of improvements: they are distinct, and the last is at least as much as each
was on its level. -/
theorem exists_chain {k : Nat} {c : ClassId}
    (improved : g.leastWithin measure (k + 1) c ≠ g.leastWithin measure k c) (known : c ∈ g.classes) :
    ∃ chain : List ClassId, chain.length = k ∧ (c :: chain).Nodup ∧ (c :: chain) ⊆ g.classes ∧
      ∀ a, g.leastWithin measure (k + 1) c = some a → ∀ d ∈ chain,
        ∃ j ≤ k, ∃ b, g.leastWithin measure j d = some b ∧ ¬ a < b := by
  induction k generalizing c with
  | zero => exact ⟨[], rfl, by simp, by simpa using known, fun a _ d hd => by cases hd⟩
  | succ k ih =>
    obtain ⟨a, d, b, level, inner, below, notLess, changed⟩ :=
      exists_improved_child superior improved
    obtain ⟨chain, length, nodup, inside, bounds⟩ := ih changed inner
    have bounded : ∀ e ∈ d :: chain,
        ∃ j ≤ k + 1, ∃ x, g.leastWithin measure j e = some x ∧ ¬ a < x := by
      intro e he
      obtain rfl | later := List.mem_cons.1 he
      · exact ⟨k + 1, Nat.le_refl _, b, below, notLess⟩
      · obtain ⟨j, le, x, early, high⟩ := bounds b below e later
        refine ⟨j, by omega, x, early, ?_⟩
        exact OrderedCost.not_lt_trans (nonnegative_leastWithin superior early)
          (nonnegative_leastWithin superior below) (nonnegative_leastWithin superior level) high
          notLess
    have fresh : c ∉ d :: chain := by
      intro again
      obtain ⟨j, le, x, early, high⟩ := bounded c again
      have settled : Cost.improves a (g.leastWithin measure (k + 1) c) = false :=
        (lowers_leastWithin le c).not_improves (early ▸ Cost.not_improves_some.2 high)
      obtain same | ⟨a', level', better⟩ :=
        lowers_leastWithin_succ g measure (k + 1) c
      · exact improved same
      · obtain rfl := Option.some.inj (level'.symm.trans level)
        rw [settled] at better
        cases better
    refine ⟨d :: chain, by rw [List.length_cons, length], List.nodup_cons.2 ⟨fresh, nodup⟩,
      List.cons_subset.2 ⟨known, inside⟩, ?_⟩
    intro a' level' e he
    obtain rfl := Option.some.inj (level'.symm.trans level)
    exact bounded e he

/-- There are no more levels than classes. -/
theorem leastWithin_stable (c : ClassId) :
    g.leastWithin measure (g.classes.length + 1) c = g.leastWithin measure g.classes.length c := by
  by_contra improved
  have known : c ∈ g.classes := by
    obtain same | ⟨id, node, stored, owner, _⟩ :=
      leastWithin_succ_cases g measure g.classes.length c
    · exact absurd same improved
    · exact mem_classes.2 ⟨id, node, stored, owner⟩
  obtain ⟨chain, length, nodup, inside, _⟩ := exists_chain superior improved known
  have fits := nodup.length_le_of_subset inside
  rw [List.length_cons, length] at fits
  omega

end Ordered

end EGraph

end Extraction
