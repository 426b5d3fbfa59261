import Extraction.Proofs.Cost.Least
import Extraction.Proofs.Relaxation.Shortcut

/-! What the shortcut for single children leaves out of the records. Beside each other, a run with the shortcut
and a run without it record the same nodes. Where they have not recorded the same cost, the node stands above a
single class, and the shortcut has left the cost out or a lower one. -/
namespace Extraction
open Std

variable {α : Type} [Cost α]

namespace Selection

/-- What is bounded before and recorded no lower stays bounded. -/
theorem not_improves_lesser [ExactCost α] {kept all total total' : Option α}
    (before : ∀ x, kept = some x → Cost.improves x all = false)
    (now : ∀ x, total = some x → Cost.improves x total' = false) :
    ∀ x, lesser kept total = some x → Cost.improves x (lesser all total') = false := by
  intro x least
  obtain old | new := lesser_eq_some least
  · exact (lowers_lesser all total').not_improves (before x old)
  · obtain ⟨y, rfl, notLess⟩ := Cost.not_improves_iff.1 (now x new)
    obtain ⟨z, least', notLess'⟩ := exists_lesser_some all y
    rw [least', Cost.not_improves_some]
    exact ExactCost.not_lt_chain notLess' notLess

end Selection

/-- The node stands above a single class, once or more often. -/
def EGraph.AboveSingle (g : EGraph α) (id : NodeId) : Prop :=
  ∃ node, g.node? id = some node ∧ node.distinctChildren.length = 1

/-- Records that agree except on nodes above a single class, where the first ones are no lower. -/
def Overlooks (g : EGraph α) (kept all : TreeMap NodeId (Option α)) : Prop :=
  ∀ id, kept.get? id = all.get? id ∨ g.AboveSingle id ∧
    ∃ least least', kept.get? id = some least ∧ all.get? id = some least' ∧
      ∀ x, least = some x → Cost.improves x least' = false

namespace Plan
variable {passes : Nat} {pace : Pace}

/-- An evaluation comes to the same with the shortcut, or to nothing for a node above a single class. -/
theorem total?_of_shortcut (g : EGraph α) (table : Table α (Bill α)) (id : NodeId) :
    ((byBills true passes pace).evaluateIn g table id).total? =
        ((byBills false passes pace).evaluateIn g table id).total? ∨
      g.AboveSingle id ∧ ((byBills true passes pace).evaluateIn g table id).total? = none := by
  cases stored : g.node? id with
  | none => simp only [evaluateIn, stored, true_or]
  | some node =>
    simp only [evaluateIn, stored, byBills]
    cases full : billEvaluation false table id node with
    | blocked | rejected =>
      cases short : billEvaluation true table id node with
      | blocked | rejected => exact .inl rfl
      | candidate entry => cases full.symm.trans (candidate_of_shortcut short)
    | candidate entry =>
      obtain same | ⟨child, values, _⟩ := candidate_or_hopeless full
      · rw [same]
        exact .inl rfl
      · have single : node.distinctChildren.length = 1 := (mapM_eq_some_iff.1 values).length_eq
        cases short : billEvaluation true table id node with
        | blocked | rejected => exact .inr ⟨⟨node, stored, single⟩, rfl⟩
        | candidate entry' =>
          rw [full.symm.trans (candidate_of_shortcut short)]
          exact .inl rfl

end Plan

section Records
open Plan
variable [ExactCost α] {passes : Nat} {pace : Pace} {g : EGraph α} {table : Table α (Bill α)}

/-- Recording one more evaluation at the same table. -/
theorem Overlooks.record {kept all : TreeMap NodeId (Option α)} (h : Overlooks g kept all)
    (id : NodeId) :
    Overlooks g
      (Selection.recordTotal kept id ((byBills true passes pace).evaluateIn g table id).total?)
      (Selection.recordTotal all id ((byBills false passes pace).evaluateIn g table id).total?) := by
  intro j
  rw [Selection.get?_recordTotal, Selection.get?_recordTotal]
  by_cases taken : id = j
  · subst taken
    rw [if_pos rfl, if_pos rfl]
    have before : ∀ x, (kept.get? id).getD none = some x →
        Cost.improves x ((all.get? id).getD none) = false := by
      intro x recorded
      obtain same | ⟨_, least, least', found, found', bound⟩ := h id
      · rw [← same, recorded]
        exact Cost.not_improves_self x
      · rw [found] at recorded
        rw [found']
        exact bound x recorded
    obtain same | ⟨single, nothing⟩ := total?_of_shortcut g table id
    · rw [same]
      obtain agreed | ⟨single, _⟩ := h id
      · rw [agreed]
        exact .inl rfl
      · refine .inr ⟨single, _, _, rfl, rfl, Selection.not_improves_lesser before ?_⟩
        intro x now
        rw [now]
        exact Cost.not_improves_self x
    · refine .inr ⟨single, _, _, rfl, rfl, Selection.not_improves_lesser before ?_⟩
      rw [nothing]
      exact nofun
  · rw [if_neg taken, if_neg taken]
    exact h j

theorem Overlooks.recorded {kept all : TreeMap NodeId (Option α)} (h : Overlooks g kept all)
    (batch : List NodeId) :
    Overlooks g ((byBills true passes pace).recorded g table kept batch)
      ((byBills false passes pace).recorded g table all batch) := by
  induction batch generalizing kept all with
  | nil => exact h
  | cons id batch ih => exact ih (h.record id)

end Records

end Extraction
