import Extraction.Decision
import Extraction.Proofs.Extract.Outcome
import Extraction.Proofs.Selection.Check
import Extraction.Proofs.Selection.Survey
import Extraction.Proofs.Selection.Tabulate

/-! What the check is worth. A selection that passes it is complete and goes round nowhere below the roots,
so that both walks from the roots end well, and with them all that is computed along them. -/
namespace Extraction
open Relation

variable {α : Type} [Cost α]

namespace Selection
variable {s : Selection α} {g : EGraph α}

theorem Valid.exists_survey (valid : s.Valid g) :
    ∃ visits, (s.survey g g.roots).result = .ok visits := by
  apply (survey_ok_iff g.rootsPresent).2
  intro c below
  obtain ⟨v, member⟩ := valid.proper.exists_chosenMember (valid.complete c below)
  exact ⟨v, (chosenMember_eq_ok_iff.1 member).1⟩

/-- The survey of a founded selection ends well wherever the selection chooses for the roots. -/
theorem Founded.exists_survey (founded : s.Founded g) {roots : List ClassId}
    (rooted : ∀ r ∈ roots, (s.choice? r).isSome) :
    ∃ visits, (s.survey g roots).result = .ok visits := by
  have inside : ∀ r ∈ roots, r ∈ g.classes := by
    intro r root
    obtain ⟨v, member⟩ := founded.exists_chosenMember (rooted r root)
    obtain ⟨_, _, stored, owner⟩ := chosenMember_eq_ok.1 member
    exact EGraph.mem_classes.2 ⟨v.id, v.node, stored, owner⟩
  refine (survey_ok_iff inside).2 fun c below => ?_
  obtain ⟨v, member⟩ := founded.exists_chosenMember (founded.chosen_below rooted below)
  exact ⟨v, (chosenMember_eq_ok_iff.1 member).1⟩

theorem Valid.exists_treeCost (valid : s.Valid g) : ∃ cost, s.treeCost g g.roots = .ok cost := by
  obtain ⟨visits, walk⟩ := valid.exists_postOrder
  exact ⟨_, treeCost_eq_ok.2 ⟨visits, walk, rfl⟩⟩

theorem Valid.exists_dagCost (valid : s.Valid g) : ∃ cost, s.dagCost g g.roots = .ok cost := by
  obtain ⟨visits, walk⟩ := valid.exists_survey
  exact ⟨_, dagCost_eq_ok.2 ⟨visits, walk, rfl⟩⟩

theorem Valid.exists_depth (valid : s.Valid g) : ∃ depth, s.depth g g.roots = .ok depth := by
  obtain ⟨visits, walk⟩ := valid.exists_postOrder
  exact ⟨_, by rw [depth, walk]; rfl⟩

theorem Valid.exists_activeNodes (valid : s.Valid g) :
    ∃ active, s.activeNodes g g.roots = .ok active := by
  obtain ⟨visits, walk⟩ := valid.exists_survey
  exact ⟨_, by rw [activeNodes, walk]; rfl⟩

/-- The check passes exactly the selections that choose a node of its class wherever they choose and for
every class below the roots, of which there are some, and that go round nowhere below them. What passes
has a tree cost, a dag cost, a depth, active nodes and decisions to start from. -/
theorem check_decides (s : Selection α) (g : EGraph α) :
    (s.check g = .ok () ↔
      g.roots ≠ [] ∧
        (∀ e ∈ s.choices.toList, ∃ node, g.node? e.2 = some node ∧ node.eclass = e.1) ∧
        (∀ c, s.Below g g.roots c → ∃ id, s.choice? c = some id) ∧
        ∀ c, s.Below g g.roots c → ¬ TransGen (s.Uses g) c c) ∧
      (s.check g = .ok () →
        (∃ cost, s.treeCost g g.roots = .ok cost) ∧ (∃ cost, s.dagCost g g.roots = .ok cost) ∧
          (∃ depth, s.depth g g.roots = .ok depth) ∧
          (∃ active, s.activeNodes g g.roots = .ok active) ∧
          ∃ decisions, Decision.warmStart s g = .ok decisions) := by
  rw [check_eq_ok_iff_valid]
  have listed : (∀ e ∈ s.choices.toList, ∃ node, g.node? e.2 = some node ∧ node.eclass = e.1) ↔
      s.Proper g := by
    simp only [Proper, choice?, OrderedMap.get?_eq_some_iff, Prod.forall]
  rw [listed]
  constructor
  · constructor
    · intro valid
      exact ⟨valid.rooted, valid.proper,
        fun c below => Option.isSome_iff_exists.1 (valid.complete c below), valid.acyclic⟩
    · rintro ⟨rooted, proper, complete, acyclic⟩
      exact ⟨rooted, proper, fun c below => Option.isSome_iff_exists.2 (complete c below), acyclic⟩
  · intro valid
    obtain ⟨active, found⟩ := valid.exists_activeNodes
    refine ⟨valid.exists_treeCost, valid.exists_dagCost, valid.exists_depth, ⟨active, found⟩, ?_⟩
    rw [Decision.warmStart, found]
    exact ⟨_, rfl⟩

end Selection

section Diamond
set_option maxRecDepth 100000

/-- A graph whose classes 1 and 2 share class 0 below the root 3, which uses class 2 twice. Class 0 could
also stand above the root. -/
def diamondGraph : EGraph Float :=
  (Draft.ofNodes [((0 : UInt32), [], (1.0 : Float)), (0, [3], 0), (1, [0], 2), (2, [0], 3),
    (3, [1, 2, 2], 4)] [3]).toGraph.toOption.get (by decide +kernel)

def diamondSelection : Selection Float :=
  [0, 1, 2, 3].foldl (fun s c => s.choose ⟨c⟩ ⟨⟨c⟩, 0⟩) ∅

theorem diamondSelection_passes : diamondSelection.check diamondGraph = .ok () ∧
    (∀ c, diamondSelection.Below diamondGraph diamondGraph.roots c →
      ¬ TransGen (diamondSelection.Uses diamondGraph) c c) ∧
    ∃ decisions, Decision.warmStart diamondSelection diamondGraph = .ok decisions := by
  have ok : diamondSelection.check diamondGraph = .ok () := by decide +kernel
  have decided := Selection.check_decides diamondSelection diamondGraph
  obtain ⟨_, _, _, acyclic⟩ := decided.1.1 ok
  obtain ⟨_, _, _, _, decisions⟩ := decided.2 ok
  exact ⟨ok, acyclic, decisions⟩

end Diamond

end Extraction
