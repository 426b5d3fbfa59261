import Extraction.Proofs.Relaxation.Invariants
import Extraction.Proofs.Cost.Sums

/-! Measures in relaxation. The tree cost and the depth of a node are never below those of its children
and do not fall when a child's rises; this is all that the runs by a measure rest on. -/
namespace Extraction
open Std
open Cost (Nonnegative)

variable {α : Type} [Cost α]

/-- A measure that is never below the measures of the children and keeps their order. -/
structure Superior (measure : Node α → List α → α) : Prop where
  nonnegative : ∀ {node below}, Nonnegative node.cost → (∀ a ∈ below, Nonnegative a) →
    Nonnegative (measure node below)
  above : ∀ {node below a}, Nonnegative node.cost → (∀ a ∈ below, Nonnegative a) → a ∈ below →
    ¬ measure node below < a
  mono : ∀ {node below below'}, Nonnegative node.cost → (∀ a ∈ below, Nonnegative a) →
    (∀ a ∈ below', Nonnegative a) → List.Forall₂ (fun a b => ¬ b < a) below below' →
    ¬ measure node below' < measure node below

section Greater
variable [OrderedCost α]

omit [OrderedCost α] in
theorem nonnegative_greater {a b : α} (ha : Nonnegative a) (hb : Nonnegative b) :
    Nonnegative (greater a b) := by
  unfold greater
  split <;> assumption

theorem not_greater_lt_left {a b : α} : ¬ greater a b < a := by
  unfold greater
  split
  · exact OrderedCost.irrefl a
  · assumption

theorem not_greater_lt_right {a b : α} : ¬ greater a b < b := by
  unfold greater
  split
  · rename_i less
    exact OrderedCost.asymm less
  · exact OrderedCost.irrefl b

theorem not_greater_lt_greater {a b c d : α} (ha : Nonnegative a) (hb : Nonnegative b)
    (hc : Nonnegative c) (hd : Nonnegative d) (first : ¬ c < a) (second : ¬ d < b) :
    ¬ greater c d < greater a b := by
  have whole := nonnegative_greater hc hd
  rw [greater.eq_def a b]
  split
  · exact OrderedCost.not_lt_trans ha hc whole first not_greater_lt_left
  · exact OrderedCost.not_lt_trans hb hd whole second not_greater_lt_right

end Greater

variable [OrderedCost α]

theorem superior_treeMeasure : Superior (treeMeasure (α := α)) where
  nonnegative cost below := nonnegative_foldl OrderedCost.nonnegative_add cost below
  above cost below mem := not_foldl_lt_mem OrderedCost.nonnegative_add OrderedCost.add_not_lt_left
    OrderedCost.add_not_lt_right cost below mem
  mono cost below below' pairs := not_foldl_lt_foldl OrderedCost.nonnegative_add
    OrderedCost.add_not_lt_add pairs cost cost below below' (OrderedCost.irrefl _)

theorem superior_depthMeasure : Superior (depthMeasure (α := α)) where
  nonnegative _ below := OrderedCost.nonnegative_add
    (nonnegative_foldl nonnegative_greater OrderedCost.nonnegative_zero below)
    OrderedCost.nonnegative_one
  above := by
    intro node below a _ hs mem
    have zero := OrderedCost.nonnegative_zero (α := α)
    have deepest := nonnegative_foldl nonnegative_greater zero hs
    exact OrderedCost.not_lt_trans (hs a mem) deepest
      (OrderedCost.nonnegative_add deepest OrderedCost.nonnegative_one)
      (not_foldl_lt_mem nonnegative_greater (fun _ _ => not_greater_lt_left)
        (fun _ _ => not_greater_lt_right) zero hs mem)
      (OrderedCost.add_not_lt_left deepest OrderedCost.nonnegative_one)
  mono := by
    intro node below below' _ hs hs' pairs
    have zero := OrderedCost.nonnegative_zero (α := α)
    have one := OrderedCost.nonnegative_one (α := α)
    exact OrderedCost.add_not_lt_add (nonnegative_foldl nonnegative_greater zero hs) one
      (nonnegative_foldl nonnegative_greater zero hs') one
      (not_foldl_lt_foldl nonnegative_greater not_greater_lt_greater pairs zero zero hs hs'
        (OrderedCost.irrefl _))
      (OrderedCost.irrefl _)

/-- No total is below zero. -/
def Table.Nonnegative (table : Table α Unit) : Prop :=
  ∀ ⦃c a⦄, table.total? c = some a → Cost.Nonnegative a

omit [OrderedCost α] in
theorem Table.nonnegative_of_entries {table : Table α Unit}
    (each : ∀ c entry, TreeMap.get? table c = some entry → Cost.Nonnegative entry.total) : table.Nonnegative := by
  intro c a total
  obtain ⟨entry, held, rfl⟩ := Table.total?_eq_some_iff.1 total
  exact each c entry held

omit [OrderedCost α] in
theorem Table.Nonnegative.below {table : Table α Unit} (h : table.Nonnegative) {node : Node α}
    {below : List α} (values : node.children.mapM table.total? = some below) :
    ∀ a ∈ below, Cost.Nonnegative a := forall_of_mapM values h

theorem Superior.nonnegative_measure {measure : Node α → List α → α} (superior : Superior measure)
    {g : EGraph α} {table : Table α Unit} (nonnegative : table.Nonnegative) {id : NodeId}
    {node : Node α} {below : List α} (stored : g.node? id = some node)
    (values : node.children.mapM table.total? = some below) : Nonnegative (measure node below) :=
  superior.nonnegative (EGraph.nonnegative_cost stored) (nonnegative.below values)

namespace Plan

/-- The extraction by a measure: one pass, one node at a time. -/
def byMeasure (measure : Node α → List α → α) : Plan α Unit := ⟨measureEvaluation measure, 1, .single⟩

variable {measure : Node α → List α → α}

omit [Cost α] [OrderedCost α] in
theorem measureEvaluation_eq_candidate {table : Table α Unit} {id : NodeId} {node : Node α}
    {entry : Entry α Unit} : measureEvaluation measure table id node = .candidate entry ↔
      ∃ below, node.children.mapM table.total? = some below ∧
        entry = ⟨id, measure node below, ()⟩ := by
  unfold measureEvaluation
  cases node.children.mapM table.total? with
  | none => simp
  | some below => simp [eq_comm]

omit [OrderedCost α] in
theorem careful_byMeasure : (byMeasure measure).Careful where
  chooses := by
    intro table id node entry h
    obtain ⟨_, _, rfl⟩ := measureEvaluation_eq_candidate.1 h
    rfl
  ready := by
    intro table id node entry h c child
    obtain ⟨below, values, _⟩ := measureEvaluation_eq_candidate.1 h
    obtain ⟨a, _, value⟩ := mem_mapM values child
    exact Table.exists_total_iff.1 ⟨a, value⟩
  steady := by
    intro table table' id node entry same _ h
    obtain ⟨below, values, rfl⟩ := measureEvaluation_eq_candidate.1 h
    refine measureEvaluation_eq_candidate.2 ⟨below, ?_, rfl⟩
    rw [← values]
    exact mapM_congr fun c child => by rw [Table.total?, Table.total?, same c child]

variable {g : EGraph α} {r : Run α Unit}

omit [OrderedCost α] in
theorem evaluateIn_byMeasure {table : Table α Unit} {id : NodeId} {node : Node α} {below : List α}
    (stored : g.node? id = some node) (values : node.children.mapM table.total? = some below) :
    (byMeasure measure).evaluateIn g table id = .candidate ⟨id, measure node below, ()⟩ :=
  evaluateIn_eq_candidate.2 ⟨node, stored, measureEvaluation_eq_candidate.2 ⟨below, values, rfl⟩⟩

theorem Reached.nonnegative (superior : Superior measure) (reached : (byMeasure measure).Reached g r) :
    r.table.Nonnegative := by
  have each := reached.forall_entries careful_byMeasure (Q := fun _ entry => Cost.Nonnegative entry.total) <| by
    intro table node entry nonnegative stored candidate
    obtain ⟨below, values, same⟩ := measureEvaluation_eq_candidate.1 candidate
    rw [same]
    exact superior.nonnegative_measure (Table.nonnegative_of_entries nonnegative) stored values
  exact Table.nonnegative_of_entries each

end Plan

end Extraction
