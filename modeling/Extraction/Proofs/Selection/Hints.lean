import Extraction.Decision
import Extraction.Proofs.Cost.Least

/-! The nodes that recorded costs rule out. They are the recorded nodes that are infeasible or dearer than
the best of their class allows; so none of them is a cheapest node of its class. -/
namespace Extraction
open Std
open Cost (Nonnegative)

variable {α : Type} [Cost α] {s : Selection α} {c : ClassId} {id : NodeId} {total : α}

namespace Selection

/-- What is recorded for the nodes of the class, in the order of the nodes. -/
def totalsOf (s : Selection α) (c : ClassId) : List (Option α) :=
  (s.candidates.toList.filter fun e => e.1.owner = c).map Prod.snd

omit [Cost α] in
theorem mem_toList_candidates {total : Option α} :
    (id, total) ∈ s.candidates.toList ↔ s.candidates.get? id = some total := by
  rw [TreeMap.get?_eq_getElem?]
  exact TreeMap.mem_toList_iff_getElem?_eq_some

omit [Cost α] in
theorem mem_totalsOf {total : Option α} :
    total ∈ s.totalsOf c ↔ ∃ id, id.owner = c ∧ s.candidates.get? id = some total := by
  simp only [totalsOf, List.mem_map, List.mem_filter, Prod.exists, mem_toList_candidates,
    decide_eq_true_eq, exists_eq_right]
  exact exists_congr fun _ => and_comm

theorem leastTotal?_eq (s : Selection α) (c : ClassId) :
    s.leastTotal? c = (s.totalsOf c).foldl lesser none := by rw [totalsOf, List.foldl_map]; rfl

/-- The least total is that of a node. -/
theorem exists_of_leastTotal (h : s.leastTotal? c = some total) :
    ∃ id, id.owner = c ∧ s.candidates.get? id = some (some total) := by
  rw [leastTotal?_eq] at h
  obtain none | listed := foldl_lesser_mem none (s.totalsOf c)
  · cases h.symm.trans none
  · rw [h] at listed
    exact mem_totalsOf.1 listed

theorem not_improves_leastTotal [OrderedCost α] (recorded : s.candidates.get? id = some (some total)) :
    Cost.improves total (s.leastTotal? id.owner) = false := by
  rw [leastTotal?_eq]
  exact not_improves_foldl_lesser (mem_totalsOf.2 ⟨id, rfl, recorded⟩)

theorem mem_zeroNodes {bound : α} : id ∈ s.zeroNodes bound ↔
    ∃ total least, s.candidates.get? id = some total ∧ s.leastTotal? id.owner = some least ∧
      exceeds bound least total = true := by
  simp only [zeroNodes, List.mem_map, List.mem_filter, Prod.exists, mem_toList_candidates,
    exists_and_right, exists_eq_right, Option.any_eq_true, exists_and_left]

/-- A node of the class with a recorded cost that no cost recorded for a node of the class is below. -/
structure Cheapest (s : Selection α) (c : ClassId) (id : NodeId) (total : α) : Prop where
  owner : id.owner = c
  recorded : s.candidates.get? id = some (some total)
  least : ∀ {other : NodeId} {x : α}, other.owner = c →
    s.candidates.get? other = some (some x) → ¬ x < total

/-- Only costs that are not below zero are recorded. -/
def Nonnegative (s : Selection α) : Prop :=
  ∀ {id : NodeId} {x : α}, s.candidates.get? id = some (some x) → Cost.Nonnegative x

/-- Whatever the bound, a cheapest node is not ruled out. -/
theorem Cheapest.not_mem_zeroNodes [ScaledCost α] (h : s.Cheapest c id total)
    (positive : s.Nonnegative) {bound : α} (finite : Cost.isFinite bound = true)
    (factor : ¬ bound < 1) : id ∉ s.zeroNodes bound := by
  intro hinted
  obtain ⟨_, least, recorded, attained, beyond⟩ := mem_zeroNodes.1 hinted
  obtain rfl := Option.some.inj (h.recorded.symm.trans recorded)
  obtain ⟨other, sibling, recorded'⟩ := exists_of_leastTotal attained
  have above : ¬ least < total := h.least (sibling.trans h.owner) recorded'
  have nonnegative := positive recorded'
  have scaled : least * bound < total := by simpa [exceeds] using beyond
  have less := OrderedCost.lt_of_lt_of_not_lt (ScaledCost.nonnegative_mul nonnegative finite factor)
    (positive recorded) nonnegative scaled above
  exact ScaledCost.mul_not_lt nonnegative finite factor less

end Selection

/-- Only chosen nodes are used at the start. -/
theorem Decision.choice?_of_warmStart {g : EGraph α} {decisions : List Decision}
    (ok : warmStart s g = .ok decisions) (used : .node id true ∈ decisions) :
    ∃ c, s.choice? c = some id := by
  cases walked : s.activeNodes g g.roots with
  | error e =>
    rw [warmStart, walked] at ok
    cases ok
  | ok active =>
    rw [warmStart, walked] at ok
    obtain rfl := Except.ok.inj ok
    obtain ⟨⟨c, id'⟩, listed, same⟩ := List.mem_map.1 used
    split at same
    · cases same
      exact ⟨c, OrderedMap.get?_eq_some_iff.2 listed⟩
    · cases same

theorem Decision.mem_rulingOut {nodes : List NodeId} : .node id false ∈ rulingOut nodes ↔ id ∈ nodes := by
  simp [rulingOut]

end Extraction
