import Extraction.Proofs.Extract.Outcome
import Extraction.Proofs.Selection.Check

/-! Cycles that are reported. Whatever walks in post-order and stops at a cycle names the classes that the
choices lead round, in the order in which they use each other; nothing else that can be wrong with a choice is
reported as a cycle. -/
namespace Extraction

variable {α : Type} [Cost α]

namespace Selection
variable {s : Selection α} {g : EGraph α} {roots path : List ClassId}

theorem Circle.ne_nil (circle : s.Circle g path) : path ≠ [] := by
  obtain ⟨first, _, head, _⟩ := circle.closed
  rintro rfl
  cases head

theorem chosen_ne_cycle {c : ClassId} : s.chosen g c ≠ .error (.cycle path) := by
  unfold chosen
  split
  · simp
  · split <;> simp

theorem chosenMember_ne_cycle {c : ClassId} : s.chosenMember g c ≠ .error (.cycle path) := by
  unfold chosenMember
  split
  · rename_i e missing
    exact fun same => chosen_ne_cycle (missing.trans same)
  · split <;> simp

theorem choiceFault?_ne_cycle {c : ClassId} {id : NodeId} :
    choiceFault? g c id ≠ some (.cycle path) := by
  unfold choiceFault?
  split
  · simp
  · split <;> simp

/-- A walk that stops at a cycle has gone round below its roots. -/
theorem circle_of_postOrder (error : (s.postOrder g roots).result = .error (.cycle path)) :
    s.Circle g path ∧ ∀ c ∈ path, s.Below g roots c := by
  generalize cause : CheckError.cycle path = e at error
  cases fault_of_postOrder error with
  | cycle circle below =>
    obtain rfl := CheckError.cycle.inj cause
    exact ⟨circle, below⟩
  | unknown => cases cause
  | choice _ improper =>
    subst cause
    exact absurd improper chosenMember_ne_cycle

/-- What stops the walk is all that the tree cost fails with. -/
theorem treeCost_eq_error {e : CheckError} :
    s.treeCost g roots = .error e ↔ (s.postOrder g roots).result = .error e := by
  unfold treeCost
  cases (s.postOrder g roots).result <;> simp

theorem depth_eq_error {e : CheckError} :
    s.depth g roots = .error e ↔ (s.postOrder g roots).result = .error e := by
  unfold depth
  cases (s.postOrder g roots).result <;> simp

/-- The check finds cycles by its walk alone. -/
theorem postOrder_of_check (error : s.check g = .error (.cycle path)) :
    (s.postOrder g g.roots).result = .error (.cycle path) := by
  unfold check at error
  split at error
  · cases error
  split at error
  · cases error
  split at error
  · rename_i fault found
    obtain ⟨e, _, wrong⟩ := List.exists_of_findSome?_eq_some found
    obtain rfl := Except.error.inj error
    exact absurd wrong choiceFault?_ne_cycle
  · cases result : (s.postOrder g g.roots).result with
    | error e =>
      rw [result] at error
      obtain rfl := Except.error.inj error
      rfl
    | ok visits =>
      rw [result] at error
      cases error

/-- A cycle that the check or a metric reports is a list of distinct classes below the roots, some at least, in
which each uses the next and the last the first. -/
theorem circle_of_cycle (s : Selection α) (g : EGraph α) (path : List ClassId) :
    (s.check g = .error (.cycle path) →
      path ≠ [] ∧ s.Circle g path ∧ ∀ c ∈ path, s.Below g g.roots c) ∧
    ∀ roots, (s.postOrder g roots).result = .error (.cycle path) ∨
        s.treeCost g roots = .error (.cycle path) ∨ s.depth g roots = .error (.cycle path) →
      path ≠ [] ∧ s.Circle g path ∧ ∀ c ∈ path, s.Below g roots c := by
  have walked : ∀ roots, (s.postOrder g roots).result = .error (.cycle path) →
      path ≠ [] ∧ s.Circle g path ∧ ∀ c ∈ path, s.Below g roots c := by
    intro roots error
    obtain ⟨circle, below⟩ := circle_of_postOrder error
    exact ⟨circle.ne_nil, circle, below⟩
  constructor
  · exact fun error => walked g.roots (postOrder_of_check error)
  · rintro roots (error | error | error)
    · exact walked roots error
    · exact walked roots (treeCost_eq_error.1 error)
    · exact walked roots (depth_eq_error.1 error)

end Selection

section Detour
set_option maxRecDepth 100000

/-- A graph whose class 1 has a leaf and a node above class 2, which stands above class 1 again. -/
def detourGraph : EGraph Float :=
  (Draft.ofNodes [((0 : UInt32), [(1 : UInt32), 1], (1.0 : Float)), (1, [], 1), (1, [2], 1),
    (2, [0, 1], 1)] [0]).toGraph.toOption.get (by decide +kernel)

/-- Class 2 is reached through the dearer node of class 1, and leads back to the root. -/
def detourSelection : Selection Float :=
  (((∅ : Selection Float).choose ⟨0⟩ ⟨⟨0⟩, 0⟩).choose ⟨1⟩ ⟨⟨1⟩, 1⟩).choose ⟨2⟩ ⟨⟨2⟩, 0⟩

theorem detourSelection_cycle :
    detourSelection.check detourGraph = .error (.cycle [⟨0⟩, ⟨1⟩, ⟨2⟩]) ∧
      detourSelection.Uses detourGraph ⟨2⟩ ⟨0⟩ ∧
      detourSelection.treeCost detourGraph [⟨2⟩, ⟨0⟩] = .error (.cycle [⟨2⟩, ⟨0⟩, ⟨1⟩]) ∧
      detourSelection.Below detourGraph [⟨2⟩, ⟨0⟩] ⟨1⟩ := by
  have error : detourSelection.check detourGraph = .error (.cycle [⟨0⟩, ⟨1⟩, ⟨2⟩]) := by decide +kernel
  have error' : detourSelection.treeCost detourGraph [⟨2⟩, ⟨0⟩] = .error (.cycle [⟨2⟩, ⟨0⟩, ⟨1⟩]) := by
    decide +kernel
  obtain ⟨_, circle, _⟩ := (Selection.circle_of_cycle _ _ _).1 error
  obtain ⟨_, _, below⟩ := (Selection.circle_of_cycle _ _ _).2 _ (.inr (.inl error'))
  obtain ⟨first, last, head, final, use⟩ := circle.closed
  obtain rfl := Option.some.inj head
  obtain rfl := Option.some.inj final
  exact ⟨error, use, error', below _ (by decide)⟩

end Detour

end Extraction
