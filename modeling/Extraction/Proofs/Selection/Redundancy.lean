import Extraction.Proofs.Collections
import Extraction.Proofs.Cost.Rational
import Extraction.Proofs.Graph.Redundancy
import Extraction.Proofs.Selection.Least

/-! Redundant nodes and the least costs. What can be chosen without them could be chosen with them, so
that dropping them makes nothing cheaper. It makes nothing dearer either if the node that is kept of a kind
is the cheapest; but the first in storage order is kept, and that one may cost more than the rest. -/
namespace Extraction

variable {α : Type} [Cost α]

namespace Selection
variable {s : Selection α} {g : EGraph α}
  {metric : Selection α → EGraph α → List ClassId → Except CheckError α}

/-- The selection that chooses the node kept of the kind of each chosen one. -/
def keepers (s : Selection α) (g : EGraph α) : Selection α :=
  { s with choices := s.choices.mapValues g.keeper }

theorem choice?_keepers (s : Selection α) (g : EGraph α) (c : ClassId) :
    (s.keepers g).choice? c = (s.choice? c).map g.keeper := OrderedMap.get?_mapValues _ _ _

theorem mirrors_of_dropRedundant [OrderedCost α] (s : Selection α) (g : EGraph α) :
    Mirrors s g.dropRedundant s g ∧ NoDearer s g.dropRedundant s g := by
  refine mirrors_of_same rfl (fun _ some => some) ?_
  intro c v member
  obtain ⟨same, choice, kept, owner⟩ := chosenMember_eq_ok.1 member
  exact chosenMember_eq_ok.2 ⟨same, choice, EGraph.node?_of_dropRedundant kept, owner⟩

theorem exists_kept_visit {c : ClassId} {v : Visit α} (member : s.chosenMember g c = .ok v) :
    ∃ u, (s.keepers g).chosenMember g.dropRedundant c = .ok u ∧ u.node.kind = v.node.kind := by
  obtain ⟨same, choice, stored, owner⟩ := chosenMember_eq_ok.1 member
  obtain ⟨kept, stored', kind⟩ := EGraph.exists_keeper stored
  refine ⟨⟨c, g.keeper v.id, kept⟩, chosenMember_eq_ok.2 ⟨rfl, ?_, stored', ?_⟩, kind⟩
  · rw [choice?_keepers, choice]
    rfl
  · exact (congrArg Prod.fst kind).trans owner

theorem mirrors_keepers (s : Selection α) (g : EGraph α) :
    Mirrors s g (s.keepers g) g.dropRedundant where
  roots := rfl
  chosen := by
    intro c some
    rwa [choice?_keepers, Option.isSome_map] at some
  nodes := by
    intro c v member
    obtain ⟨u, member', kind⟩ := exists_kept_visit member
    exact ⟨u, member', (perm_of_signature_eq (congrArg Prod.snd kind)).symm⟩

theorem noDearer_keepers (keeps : g.draft.KeepsCheapest) :
    NoDearer s g (s.keepers g) g.dropRedundant := by
  intro c v u member member'
  obtain ⟨u', again, kind⟩ := exists_kept_visit member
  obtain rfl := Except.ok.inj (member'.symm.trans again)
  exact keeps _ (EGraph.mem_of_node? (chosenMember_eq_ok.1 member).2.2.1) _
    (EGraph.mem_of_node? (chosenMember_eq_ok.1 member').2.2.1) kind

variable [ExactCost α]

/-- The least cost before is not above the least cost afterwards, and it is the same if what is kept is
the cheapest of its kind. -/
theorem Metric.least_dropRedundant (law : Metric metric)
    (some : ∃ s : Selection α, s.check g = .ok ()) : ∃ a b, g.Least metric a ∧ g.dropRedundant.Least metric b ∧ ¬ b < a ∧
      (g.draft.KeepsCheapest → a = b) := by
  have some' : ∃ s : Selection α, s.check g.dropRedundant = .ok () := by
    obtain ⟨s, ok⟩ := some
    have valid := (s.mirrors_keepers g).valid (check_eq_ok_iff_valid.1 ok)
    exact ⟨s.keepers g, check_eq_ok_iff_valid.2 valid⟩
  obtain ⟨a, least⟩ := law.exists_least some
  obtain ⟨b, least'⟩ := law.exists_least some'
  have above : ¬ b < a :=
    law.not_least_lt least' least fun s => ⟨s, s.mirrors_of_dropRedundant g⟩
  refine ⟨a, b, least, least', above, fun keeps => ExactCost.eq_of_not_lt ?_ above⟩
  exact law.not_least_lt least least' fun s =>
    ⟨s.keepers g, s.mirrors_keepers g, noDearer_keepers keeps⟩

end Selection

/-- A draft that seals does so without its redundant nodes, too. If a selection passes the check, the
least dag cost and the least tree cost do not fall when they are dropped; they stay the same if what is
kept is the cheapest of its kind. -/
theorem Draft.dropRedundant_least [ExactCost α] (d : Draft α) (g : EGraph α)
    (sealed : d.toGraph = .ok g) (coverable : ∃ s : Selection α, s.check g = .ok ()) :
    ∃ h, d.dropRedundant.toGraph = .ok h ∧
      ∀ metric ∈ [Selection.dagCost (α := α), Selection.treeCost], ∃ a b, g.Least metric a ∧
        h.Least metric b ∧ ¬ b < a ∧ (d.KeepsCheapest → a = b) := by
  obtain rfl := toGraph_eq_ok_iff.1 sealed
  refine ⟨g.dropRedundant, toGraph_eq_ok_iff.2 rfl, ?_⟩
  intro metric among
  have law : Selection.Metric metric := by
    simp only [List.mem_cons, List.not_mem_nil, or_false] at among
    obtain rfl | rfl := among
    · exact Selection.metric_dagCost
    · exact Selection.metric_treeCost
  exact law.least_dropRedundant coverable

section Fixed
set_option maxRecDepth 100000

/-- A draft whose first nodes of a kind are the cheapest. -/
def thriftyDraft : Draft ℚ≥0 :=
  .ofNodes [((0 : UInt32), [], (1 : ℚ≥0)), (0, [], .divNat 2 1), (1, [0], .divNat 1 3),
    (2, [0, 1, 0], 1), (2, [0, 0, 1], 1), (2, [0, 1], .divNat 3 1)] [2]

def thriftyGraph : EGraph ℚ≥0 := thriftyDraft.toGraph.toOption.get (by decide +kernel)

def thriftySelection : Selection ℚ≥0 :=
  [0, 1, 2].foldl (fun s c => s.choose ⟨c⟩ ⟨⟨c⟩, 0⟩) ∅

theorem thriftyDraft_least : thriftyDraft.redundant = [⟨⟨0⟩, 1⟩, ⟨⟨2⟩, 1⟩] ∧
    ∃ h, thriftyDraft.dropRedundant.toGraph = .ok h ∧
      ∀ metric ∈ [Selection.dagCost (α := ℚ≥0), Selection.treeCost],
        ∃ a, thriftyGraph.Least metric a ∧ h.Least metric a := by
  have keeps : thriftyDraft.KeepsCheapest := by
    unfold Draft.KeepsCheapest
    decide +kernel
  have passes : thriftySelection.check thriftyGraph = .ok () := by decide +kernel
  obtain ⟨h, dropped, least⟩ := Draft.dropRedundant_least thriftyDraft thriftyGraph
    (ok_get_toOption _) ⟨thriftySelection, passes⟩
  refine ⟨by decide +kernel, h, dropped, ?_⟩
  intro metric among
  obtain ⟨a, b, before, after, _, same⟩ := least metric among
  exact ⟨a, before, same keeps ▸ after⟩

/-- A draft whose first node of a kind is not the cheapest. -/
def dearDraft : Draft ℚ≥0 := .ofNodes [((0 : UInt32), [], .divNat 5 1), (0, [], 1)] [0]

def dearGraph : EGraph ℚ≥0 := dearDraft.toGraph.toOption.get (by decide +kernel)

/-- The selection that chooses one of its two nodes. -/
def dearSelection (index : UInt32) : Selection ℚ≥0 := (∅ : Selection ℚ≥0).choose ⟨0⟩ ⟨⟨0⟩, index⟩

/-- Dropping redundant nodes can make the least costs rise. -/
theorem dearDraft_rises : dearDraft.toGraph = .ok dearGraph ∧
    dearDraft.dropRedundant.toGraph = .ok dearGraph.dropRedundant ∧
      ∀ metric ∈ [Selection.dagCost (α := ℚ≥0), Selection.treeCost],
        dearGraph.Least metric 1 ∧ dearGraph.dropRedundant.Least metric 5 := by
  have sealed : dearDraft.toGraph = .ok dearGraph := ok_get_toOption _
  have dropped : dearGraph.dropRedundant.draft = dearDraft.dropRedundant :=
    congrArg Draft.dropRedundant (Draft.toGraph_eq_ok_iff.1 sealed)
  have keys : dearGraph.nodes.keys = [⟨⟨0⟩, 0⟩, ⟨⟨0⟩, 1⟩] := by decide +kernel
  have keys' : dearGraph.dropRedundant.nodes.keys = [⟨⟨0⟩, 0⟩] := by decide +kernel
  have passes : (dearSelection 1).check dearGraph = .ok () := by decide +kernel
  have passes' : (dearSelection 0).check dearGraph.dropRedundant = .ok () := by decide +kernel
  have least : ∀ {metric}, Selection.Metric metric →
      metric (dearSelection 0) dearGraph dearGraph.roots = .ok 5 →
      metric (dearSelection 1) dearGraph dearGraph.roots = .ok 1 →
      metric (dearSelection 0) dearGraph.dropRedundant dearGraph.roots = .ok 5 →
      dearGraph.Least metric 1 ∧ dearGraph.dropRedundant.Least metric 5 := by
    intro metric law first second first'
    constructor
    · refine law.least_of_single (c := ⟨0⟩) (by rw [keys]; decide) ⟨_, passes, second⟩ ?_
      rw [keys, List.forall_mem_cons, List.forall_mem_singleton]
      exact ⟨⟨5, first, by decide⟩, ⟨1, second, by decide⟩⟩
    · refine law.least_of_single (c := ⟨0⟩) (by rw [keys']; decide) ⟨_, passes', first'⟩ ?_
      rw [keys', List.forall_mem_singleton]
      exact ⟨5, first', by decide⟩
  refine ⟨sealed, Draft.toGraph_eq_ok_iff.2 dropped, ?_⟩
  rw [List.forall_mem_cons, List.forall_mem_singleton]
  constructor
  · exact least Selection.metric_dagCost (by decide +kernel) (by decide +kernel) (by decide +kernel)
  · exact least Selection.metric_treeCost (by decide +kernel) (by decide +kernel) (by decide +kernel)

end Fixed

end Extraction
