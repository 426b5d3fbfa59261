import Extraction.Proofs.Relaxation.Steps

/-! How the total of a class comes down. The improvements of a class follow one another: the first one finds
no total, each later one the total that the one before it has left, and the last one leaves the total that the
class has. -/
namespace Extraction
open Std

variable {α β : Type} [Cost α]

/-- Improvements that lead from one total to another, each from where the one before it has led. -/
inductive Descends : Option α → List (Install α) → Option α → Prop
  | nil (total : Option α) : Descends total [] total
  | cons {c : ClassId} {before : Option α} {after : α} {installs : List (Install α)}
      {last : Option α} (better : Cost.improves after before = true)
      (others : Descends (some after) installs last) :
      Descends before (⟨c, before, after⟩ :: installs) last

theorem Descends.append {first middle last : Option α} {installs installs' : List (Install α)}
    (h : Descends first installs middle) (h' : Descends middle installs' last) :
    Descends first (installs ++ installs') last := by
  induction h with
  | nil => exact h'
  | cons better _ ih => exact .cons better (ih h')

namespace Run

/-- The improvements of a class, the earliest first. -/
def installsOf (r : Run α β) (c : ClassId) : List (Install α) :=
  r.installs.reverse.filter fun i => i.eclass = c

end Run

namespace Plan
variable {plan : Plan α β} {g : EGraph α} {r : Run α β}

/-- A round improves a class once at most. -/
theorem installsOf_round (plan : Plan α β) (g : EGraph α) (polls : Nat) (r : Run α β) (c : ClassId) :
    (plan.round g polls r).installsOf c = r.installsOf c ++
      (((plan.wins g r).get? c).map fun entry =>
        (⟨c, r.table.total? c, entry.total⟩ : Install α)).toList := by
  rw [Run.installsOf, round_installs, List.reverse_append, List.reverse_reverse, List.filter_append,
    List.filter_map]
  congr 1
  have own := OrderedMap.filter_toList (plan.wins g r) c
  cases won : (plan.wins g r).get? c with
  | none =>
    rw [won] at own
    exact congrArg _ own
  | some entry =>
    rw [won] at own
    exact congrArg _ own

variable [OrderedCost α]

theorem descends_round (polls : Nat) {c : ClassId}
    (h : Descends none (r.installsOf c) (r.table.total? c)) :
    Descends none ((plan.round g polls r).installsOf c) ((plan.round g polls r).table.total? c) := by
  rw [installsOf_round, round_table, Table.total?_update]
  refine h.append ?_
  cases won : (plan.wins g r).get? c with
  | none => exact .nil _
  | some entry => exact .cons (improves_of_winner won) (.nil _)

/-- The improvements of a class lead to the total that it has. -/
theorem Reached.descends (reached : plan.Reached g r) (c : ClassId) :
    Descends none (r.installsOf c) (r.table.total? c) := by
  induction reached with
  | start => exact .nil none
  | step _ step ih =>
    cases step with
    | pass => exact ih
    | round polls => exact descends_round polls ih

end Plan

end Extraction
