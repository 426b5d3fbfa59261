import Extraction.Proofs.Collections
import Extraction.Proofs.Cost.Laws
import Extraction.Selection.Basic

/-! The least of several costs, some of which may be missing. -/
namespace Extraction
open Std

variable {α : Type} [Cost α]

namespace Selection

theorem lowers_lesser (best x : Option α) : Cost.Lowers best (lesser best x) := by
  cases x with
  | none => exact .refl best
  | some a =>
    simp only [lesser]
    split
    · rename_i better
      exact .inr ⟨a, rfl, better⟩
    · exact .refl best

theorem lesser_eq_some {best x : Option α} {a : α} (h : lesser best x = some a) :
    best = some a ∨ x = some a := by
  cases x with
  | none => exact .inl h
  | some b =>
    simp only [lesser] at h
    split at h
    · exact .inr h
    · exact .inl h

theorem lesser_of_not_improves {best x : Option α}
    (worse : ∀ a, x = some a → Cost.improves a best = false) : lesser best x = best := by
  cases x with
  | none => rfl
  | some a => rw [lesser, if_neg (Bool.eq_false_iff.1 (worse a rfl))]

theorem get?_recordTotal (candidates : TreeMap NodeId (Option α)) (id j : NodeId) (total : Option α) :
    (recordTotal candidates id total).get? j =
      if id = j then some (lesser ((candidates.get? j).getD none) total) else candidates.get? j := by
  rw [recordTotal, get?_insert, getD_eq_get?]
  split
  · rename_i same
    rw [same]
  · rfl

/-- The least is what it began with or one of the costs. -/
theorem foldl_lesser_mem (best : Option α) (costs : List (Option α)) :
    costs.foldl lesser best = best ∨ costs.foldl lesser best ∈ costs := by
  induction costs generalizing best with
  | nil => exact .inl rfl
  | cons x costs ih =>
    rw [List.foldl_cons]
    obtain first | later := ih (lesser best x)
    · rw [first]
      cases x with
      | none => exact .inl rfl
      | some a =>
        simp only [lesser]
        split
        · exact .inr List.mem_cons_self
        · exact .inl rfl
    · exact .inr (List.mem_cons_of_mem x later)

variable [OrderedCost α]

theorem exists_lesser_some (best : Option α) (a : α) :
    ∃ b, lesser best (some a) = some b ∧ ¬ a < b := by
  simp only [lesser]
  by_cases better : Cost.improves a best = true
  · rw [if_pos better]
    exact ⟨a, rfl, OrderedCost.irrefl a⟩
  · rw [if_neg better]
    exact Cost.not_improves_iff.1 (Bool.eq_false_iff.2 better)

theorem lowers_foldl_lesser (best : Option α) (costs : List (Option α)) :
    Cost.Lowers best (costs.foldl lesser best) := by
  induction costs generalizing best with
  | nil => exact .refl best
  | cons x costs ih => exact (lowers_lesser best x).trans (ih _)

/-- None of the costs is below the least. -/
theorem not_improves_foldl_lesser {best : Option α} {costs : List (Option α)} {a : α}
    (mem : some a ∈ costs) : Cost.improves a (costs.foldl lesser best) = false := by
  induction costs generalizing best with
  | nil => cases mem
  | cons x costs ih =>
    obtain rfl | later := List.mem_cons.1 mem
    · apply (lowers_foldl_lesser _ costs).not_improves
      simp only [lesser]
      split
      · exact Cost.not_improves_self a
      · rename_i worse
        exact Bool.eq_false_iff.2 worse
    · exact ih later

end Selection

end Extraction
