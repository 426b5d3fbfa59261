import Extraction.Proofs.Cost.Rational
import Extraction.Proofs.Cost.Sums
import Extraction.Proofs.Selection.Agreement
import Extraction.Proofs.Selection.Validity
import Extraction.Proofs.Sorted

/-! The classes below the roots, each once. Both walks enumerate them, in different orders, wherever they end
well; so what is computed from the visits of either without regard to their order is a property of the set of
roots and of the choices below them. -/
namespace Extraction

variable {α : Type} [Cost α]

theorem NodeId.pairwise_mergeSort_le (ids : List NodeId) :
    (ids.mergeSort le).Pairwise fun a b => a.le b = true := pairwise_mergeSort ids

namespace Selection

/-- Visits of the classes below the roots, each once and by the node chosen for it. -/
structure Enumerates (s : Selection α) (g : EGraph α) (roots : List ClassId)
    (visits : List (Visit α)) : Prop extends Drawn s g visits where
  known : ∀ v ∈ visits, v.eclass ∈ g.classes
  below : ∀ c, c ∈ visits.map Visit.eclass ↔ s.Below g roots c

/-- Every class below the roots is in the graph and chooses a node that is stored, if not under that class. -/
def Stored (s : Selection α) (g : EGraph α) (roots : List ClassId) : Prop :=
  ∀ c, s.Below g roots c →
    c ∈ g.classes ∧ ∃ id node, s.choice? c = some id ∧ g.node? id = some node

variable {s t : Selection α} {g : EGraph α} {roots roots' : List ClassId} {visits visits' : List (Visit α)}

theorem exists_chosen_iff {c : ClassId} : (∃ v, s.chosen g c = .ok v) ↔
    ∃ id node, s.choice? c = some id ∧ g.node? id = some node := by
  simp only [chosen_eq_ok]
  constructor
  · rintro ⟨v, _, choice, stored⟩
    exact ⟨v.id, v.node, choice, stored⟩
  · rintro ⟨id, node, choice, stored⟩
    exact ⟨⟨c, id, node⟩, rfl, choice, stored⟩

theorem enumerates_of_survey (ok : (s.survey g roots).result = .ok visits) :
    s.Enumerates g roots visits := by
  obtain ⟨drawn, visited⟩ := drawn_of_survey ok
  exact ⟨drawn, mem_classes_of_survey ok, visited⟩

theorem enumerates_of_postOrder (ok : (s.postOrder g roots).result = .ok visits) :
    s.Enumerates g roots visits := by
  obtain ⟨grounded, visited⟩ := grounded_of_postOrder ok
  have member : ∀ v ∈ visits, s.chosenMember g v.eclass = .ok v :=
    fun v mem => grounded.proper v (List.mem_reverse.2 mem)
  refine ⟨⟨fun v mem => (chosenMember_eq_ok_iff.1 (member v mem)).1, ?_⟩, ?_, visited⟩
  · rw [← List.nodup_reverse, ← List.map_reverse]
    exact grounded.nodup
  · intro v mem
    obtain ⟨_, _, stored, owner⟩ := chosenMember_eq_ok.1 (member v mem)
    exact EGraph.mem_classes.2 ⟨v.id, v.node, stored, owner⟩

namespace Enumerates

theorem stored (enumerates : s.Enumerates g roots visits) : s.Stored g roots := by
  intro c below
  obtain ⟨v, mem, rfl⟩ := List.mem_map.1 ((enumerates.below c).2 below)
  exact ⟨enumerates.known v mem, exists_chosen_iff.1 ⟨v, enumerates.chosen v mem⟩⟩

/-- There is one enumeration up to the order of its visits. -/
theorem perm (enumerates : s.Enumerates g roots visits) (enumerates' : s.Enumerates g roots visits') :
    visits.Perm visits' := by
  apply (List.perm_ext_iff_of_nodup enumerates.nodup.of_map enumerates'.nodup.of_map).2
  intro v
  constructor
  · intro mem
    refine enumerates'.mem_of_chosen ?_ (enumerates.chosen v mem)
    exact (enumerates'.below _).2 ((enumerates.below _).1 (List.mem_map_of_mem mem))
  · intro mem
    refine enumerates.mem_of_chosen ?_ (enumerates'.chosen v mem)
    exact (enumerates.below _).2 ((enumerates'.below _).1 (List.mem_map_of_mem mem))

/-- The survey takes up what is enumerated. -/
theorem exists_survey (enumerates : s.Enumerates g roots visits) :
    ∃ taken, (s.survey g roots).result = .ok taken ∧ taken.Perm visits := by
  obtain ⟨taken, walk⟩ := survey_ok_iff_known.2 fun c below =>
    ⟨(enumerates.stored c below).1, exists_chosen_iff.2 (enumerates.stored c below).2⟩
  exact ⟨taken, walk, (enumerates_of_survey walk).perm enumerates⟩

theorem congr (enumerates : s.Enumerates g roots visits) (moved : ∀ c, t.Below g roots' c ↔ s.Below g roots c)
    (same : ∀ c, s.Below g roots c → t.choice? c = s.choice? c) : t.Enumerates g roots' visits := by
  refine ⟨⟨?_, enumerates.nodup⟩, enumerates.known, fun c => (enumerates.below c).trans (moved c).symm⟩
  intro v mem
  rw [chosen_congr (same _ ((enumerates.below _).1 (List.mem_map_of_mem mem)))]
  exact enumerates.chosen v mem

end Enumerates

theorem exists_survey_iff :
    (∃ visits, (s.survey g roots).result = .ok visits) ↔ s.Stored g roots := by
  rw [survey_ok_iff_known]
  simp only [Stored, exists_chosen_iff]

theorem exists_enumerates_iff : s.Stored g roots ↔ ∃ visits, s.Enumerates g roots visits := by
  constructor
  · intro stored
    obtain ⟨visits, walk⟩ := exists_survey_iff.2 stored
    exact ⟨visits, enumerates_of_survey walk⟩
  · exact fun ⟨_, enumerates⟩ => enumerates.stored

theorem exists_dagCost_iff : (∃ cost, s.dagCost g roots = .ok cost) ↔ s.Stored g roots := by
  rw [← exists_survey_iff]
  simp only [dagCost_eq_ok]
  exact ⟨fun ⟨_, visits, walk, _⟩ => ⟨visits, walk⟩, fun ⟨visits, walk⟩ => ⟨_, visits, walk, rfl⟩⟩

theorem exists_activeNodes_iff :
    (∃ active, s.activeNodes g roots = .ok active) ↔ s.Stored g roots := by
  rw [← exists_survey_iff]
  simp only [activeNodes_eq_ok]
  exact ⟨fun ⟨_, visits, walk, _⟩ => ⟨visits, walk⟩, fun ⟨visits, walk⟩ => ⟨_, visits, walk, rfl⟩⟩

theorem dagCost_eq_ok_iff [ExactCost α] {cost : α} : s.dagCost g roots = .ok cost ↔
    ∃ visits, s.Enumerates g roots visits ∧ Cost.sum (visits.map fun v => v.node.cost) = cost := by
  rw [dagCost_eq_ok]
  constructor
  · rintro ⟨visits, walk, rfl⟩
    exact ⟨visits, enumerates_of_survey walk, rfl⟩
  · rintro ⟨visits, enumerates, rfl⟩
    obtain ⟨taken, walk, same⟩ := enumerates.exists_survey
    exact ⟨taken, walk, ExactCost.sum_perm (same.map _)⟩

theorem activeNodes_eq_ok_iff {active : List NodeId} : s.activeNodes g roots = .ok active ↔
    ∃ visits, s.Enumerates g roots visits ∧ active = (visits.map Visit.id).mergeSort NodeId.le := by
  rw [activeNodes_eq_ok]
  constructor
  · rintro ⟨visits, walk, rfl⟩
    exact ⟨visits, enumerates_of_survey walk, rfl⟩
  · rintro ⟨visits, enumerates, rfl⟩
    obtain ⟨taken, walk, same⟩ := enumerates.exists_survey
    exact ⟨taken, walk, mergeSort_eq_of_perm (same.map _).symm⟩

/-- What chooses alike below the same roots, in whatever order and number they come, has the same enumerations. -/
theorem enumerates_congr (rooted : ∀ c, c ∈ roots' ↔ c ∈ roots)
    (same : ∀ c, s.Below g roots c → t.choice? c = s.choice? c) :
    t.Enumerates g roots' visits ↔ s.Enumerates g roots visits := by
  have moved : ∀ c, t.Below g roots' c ↔ s.Below g roots c := by
    intro c
    rw [below_congr fun d below => (same d below).symm]
    simp only [Below, rooted]
  constructor
  · intro enumerates
    exact enumerates.congr (fun c => (moved c).symm) fun c below => (same c ((moved c).1 below)).symm
  · exact fun enumerates => enumerates.congr moved same

/-- The dag cost and the active nodes are there exactly if every class below the roots is in the graph and has a
stored choice. Both then count each of these classes once, so they depend on the set of the roots and the choices
below them alone. A walk in post-order that ends well visits the same classes, each once and after all that its
node uses. -/
theorem counts_below_once (s : Selection α) (g : EGraph α) (roots : List ClassId) :
    ((∃ cost, s.dagCost g roots = .ok cost) ↔ s.Stored g roots) ∧
      ((∃ active, s.activeNodes g roots = .ok active) ↔ s.Stored g roots) ∧
      (s.Stored g roots ↔ ∃ visits, s.Enumerates g roots visits) ∧
      (∀ visits, s.Enumerates g roots visits →
        (ExactCost α → s.dagCost g roots = .ok (Cost.sum (visits.map fun v => v.node.cost))) ∧
        ∃ active, s.activeNodes g roots = .ok active ∧ active.Perm (visits.map Visit.id) ∧
          active.Pairwise fun a b => a.le b = true) ∧
      (∀ (t : Selection α) roots', (∀ c, c ∈ roots' ↔ c ∈ roots) →
        (∀ c, s.Below g roots c → t.choice? c = s.choice? c) →
        (ExactCost α → (t.dagCost g roots').toOption = (s.dagCost g roots).toOption) ∧
        (t.activeNodes g roots').toOption = (s.activeNodes g roots).toOption) ∧
      ∀ visits, (s.postOrder g roots).result = .ok visits →
        s.Enumerates g roots visits ∧ ∀ before v after, visits = before ++ v :: after →
          ∀ d ∈ v.node.children, d ∈ before.map Visit.eclass := by
  refine ⟨exists_dagCost_iff, exists_activeNodes_iff, exists_enumerates_iff, ?_, ?_, ?_⟩
  · intro visits enumerates
    refine ⟨fun _ => dagCost_eq_ok_iff.2 ⟨visits, enumerates, rfl⟩, _,
      activeNodes_eq_ok_iff.2 ⟨visits, enumerates, rfl⟩, ?_, ?_⟩
    · exact List.mergeSort_perm _ _
    · exact NodeId.pairwise_mergeSort_le _
  · intro t roots' rooted same
    constructor
    · intro _
      ext cost
      simp only [toOption_eq_some_iff, dagCost_eq_ok_iff, enumerates_congr rooted same]
    · ext active
      simp only [toOption_eq_some_iff, activeNodes_eq_ok_iff, enumerates_congr rooted same]
  · intro visits ok
    exact ⟨enumerates_of_postOrder ok, fun _ _ _ split => before_of_postOrder ok split⟩

end Selection

section Stray
set_option maxRecDepth 100000

/-- A graph of two classes that stand above each other. -/
def strayGraph : EGraph ℚ≥0 :=
  (Draft.ofNodes [((0 : UInt32), [(1 : UInt32)], (1 : ℚ≥0)), (1, [0], 1)]
    [0]).toGraph.toOption.get (by decide +kernel)

/-- Both classes choose the node of the first. -/
def straySelection : Selection ℚ≥0 :=
  ((∅ : Selection ℚ≥0).choose ⟨0⟩ ⟨⟨0⟩, 0⟩).choose ⟨1⟩ ⟨⟨0⟩, 0⟩

/-- A selection that goes round and chooses outside of a class has a dag cost and active nodes all the same; the
node that both classes choose is paid for each of them, and a root that comes twice is paid once. -/
theorem straySelection_counts :
    straySelection.check strayGraph = .error (.classMismatch ⟨1⟩ ⟨⟨0⟩, 0⟩ ⟨0⟩) ∧
      (straySelection.dagCost strayGraph [⟨0⟩, ⟨0⟩]).toOption = some 2 ∧
      ∃ active, straySelection.activeNodes strayGraph [⟨0⟩] = .ok active := by
  obtain ⟨defined, defined', _, _, stable, _⟩ :=
    Selection.counts_below_once straySelection strayGraph [⟨0⟩]
  have cost : straySelection.dagCost strayGraph [⟨0⟩] = .ok 2 := by decide +kernel
  refine ⟨by decide +kernel, ?_, defined'.2 (defined.1 ⟨2, cost⟩)⟩
  rw [(stable straySelection [⟨0⟩, ⟨0⟩] (by simp) fun _ _ => rfl).1 inferInstance, cost]
  rfl

end Stray

end Extraction
