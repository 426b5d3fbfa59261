import Extraction.Proofs.Cost.Rational
import Extraction.Proofs.Cost.Sums
import Extraction.Proofs.Extract.Outcome
import Extraction.Proofs.Selection.Survey
import Extraction.Proofs.Selection.Tabulate

/-! Metrics by recursion. A walk in post-order computes a value for each class from the values of what its node
uses. Which walk does so makes no difference: the value of a class is that of its node above the values that its
children have by themselves, and the value of several roots is made of the values of each. -/
namespace Extraction
open Relation

variable {α β : Type} [Cost α]

namespace Selection
variable {s : Selection α} {g : EGraph α} {roots roots' : List ClassId}
  {visits visits' : List (Visit α)}

/-- Every class below the roots is in the graph and chooses a stored node of its own, and none leads back to
itself: the choices can be written out as trees. -/
def Unfolds (s : Selection α) (g : EGraph α) (roots : List ClassId) : Prop :=
  ∀ c, s.Below g roots c → c ∈ g.classes ∧
    (∃ id node, s.choice? c = some id ∧ g.node? id = some node ∧ node.eclass = c) ∧
    ¬ TransGen (s.Uses g) c c

theorem exists_postOrder_iff :
    (∃ visits, (s.postOrder g roots).result = .ok visits) ↔ s.Unfolds g roots := by
  rw [postOrder_ok_iff]
  constructor
  · intro proper c below
    obtain ⟨⟨v, member⟩, acyclic⟩ := proper c below
    obtain ⟨_, choice, stored, owner⟩ := chosenMember_eq_ok.1 member
    exact ⟨EGraph.mem_classes.2 ⟨_, _, stored, owner⟩, ⟨_, _, choice, stored, owner⟩, acyclic⟩
  · intro unfolds c below
    obtain ⟨_, ⟨id, node, choice, stored, owner⟩, acyclic⟩ := unfolds c below
    exact ⟨⟨⟨c, id, node⟩, chosenMember_eq_ok.2 ⟨rfl, choice, stored, owner⟩⟩, acyclic⟩

theorem Unfolds.of_below (unfolds : s.Unfolds g roots) {c : ClassId} (below : s.Below g roots c) :
    s.Unfolds g [c] := fun d inner => unfolds d (below.trans inner)

/-- Two walks compute the same value for a class below the roots of both. -/
theorem tabulate_eq_of_walks (value : Node α → List β → β)
    (walk : (s.postOrder g roots).result = .ok visits)
    (walk' : (s.postOrder g roots').result = .ok visits') {c : ClassId} (below : s.Below g roots c)
    (below' : s.Below g roots' c) :
    (tabulate value visits).get? c = (tabulate value visits').get? c := by
  obtain ⟨grounded, visited⟩ := grounded_of_postOrder walk
  -- By induction along the first walk; the second, which has come past a class, has come past its children.
  have all := grounded.visit_induction (Q := fun c => s.Below g roots' c →
    (tabulate value visits).get? c = (tabulate value visits').get? c) ?_
  · obtain ⟨v, mem, rfl⟩ := List.mem_map.1 ((visited c).2 below)
    exact all v (List.mem_reverse.2 mem) below'
  · intro v mem below again
    have member := grounded.proper v mem
    have here := (visited _).1 (List.mem_map_of_mem (List.mem_reverse.1 mem))
    obtain ⟨u, values, chosen, inner, held⟩ := tabulated_of_walk value walk here
    obtain ⟨u', values', chosen', inner', held'⟩ := tabulated_of_walk value walk' again
    obtain rfl := Except.ok.inj (member.symm.trans chosen)
    obtain rfl := Except.ok.inj (member.symm.trans chosen')
    have children : ∀ d ∈ v.node.children,
        (tabulate value visits).get? d = (tabulate value visits').get? d := fun d child =>
      below d child (again.uses ((uses_iff_of_chosenMember member).2 child))
    rw [mapM_congr children, inner'] at inner
    rw [held, held', Option.some.inj inner]

/-- What a walk computes for its roots: `value` gives the value of a node above its children, and `total` puts
the values of the roots together. -/
def along (value : Node α → List β → β) (total : List β → β) (s : Selection α) (g : EGraph α)
    (roots : List ClassId) : Except CheckError β :=
  (s.postOrder g roots).result.map fun visits => total (roots.filterMap (tabulate value visits).get?)

theorem treeCost_eq_along : s.treeCost g roots = along Node.treeCost Cost.sum s g roots := by
  unfold treeCost along
  cases (s.postOrder g roots).result <;> rfl

theorem depth_eq_along : s.depth g roots = along Node.depthAbove greatest s g roots := by
  unfold depth along
  cases (s.postOrder g roots).result <;> rfl

section Along
variable {value : Node α → List β → β} {total : List β → β}

theorem along_of_walk (walk : (s.postOrder g roots).result = .ok visits) :
    along value total s g roots = .ok (total (roots.filterMap (tabulate value visits).get?)) := by
  rw [along, walk]
  rfl

theorem exists_along_iff : (∃ x, along value total s g roots = .ok x) ↔ s.Unfolds g roots := by
  rw [← exists_postOrder_iff]
  constructor
  · rintro ⟨_, ok⟩
    obtain ⟨visits, walk, _⟩ := exists_of_map_eq_ok ok
    exact ⟨visits, walk⟩
  · rintro ⟨visits, walk⟩
    exact ⟨_, along_of_walk walk⟩

variable (single : ∀ x, total [x] = x)
include single

/-- By itself, a class has the value that any walk past it computes. -/
theorem along_singleton (walk : (s.postOrder g roots).result = .ok visits) {c : ClassId}
    (below : s.Below g roots c) :
    (along value total s g [c]).toOption = (tabulate value visits).get? c := by
  obtain ⟨visits', walk'⟩ :=
    exists_postOrder_iff.2 ((exists_postOrder_iff.1 ⟨visits, walk⟩).of_below below)
  obtain ⟨v, values, _, _, held⟩ := tabulated_of_walk value walk below
  have agree := tabulate_eq_of_walks value walk' walk (below_self c) below
  rw [along_of_walk walk', List.filterMap_cons, agree, held, List.filterMap_nil, single]
  rfl

/-- The value of a class is that of its node above the values of its children. -/
theorem exists_along_below (unfolds : s.Unfolds g roots) {c : ClassId} (below : s.Below g roots c)
    {id : NodeId} {node : Node α} (choice : s.choice? c = some id) (stored : g.node? id = some node) :
    ∃ values, node.children.mapM (fun d => (along value total s g [d]).toOption) = some values ∧
      along value total s g [c] = .ok (value node values) := by
  obtain ⟨visits, walk⟩ := exists_postOrder_iff.2 unfolds
  obtain ⟨v, values, member, inner, held⟩ := tabulated_of_walk value walk below
  obtain ⟨rfl, choice', stored', _⟩ := chosenMember_eq_ok.1 member
  obtain rfl := Option.some.inj (choice.symm.trans choice')
  obtain rfl := Option.some.inj (stored.symm.trans stored')
  refine ⟨values, ?_, eq_ok_of_toOption ?_⟩
  · rw [← inner]
    refine mapM_congr fun d child => along_singleton single walk ?_
    exact below.uses ((uses_iff_of_chosenMember member).2 child)
  · rw [along_singleton single walk below, held]

/-- The value of several roots is made of the values of each. -/
theorem exists_along_roots (unfolds : s.Unfolds g roots) :
    ∃ values, roots.mapM (fun r => (along value total s g [r]).toOption) = some values ∧
      along value total s g roots = .ok (total values) := by
  obtain ⟨visits, walk⟩ := exists_postOrder_iff.2 unfolds
  have each : ∀ r ∈ roots,
      (along value total s g [r]).toOption = (tabulate value visits).get? r :=
    fun r root => along_singleton single walk ⟨r, root, .refl⟩
  have defined : ∀ r ∈ roots, ∃ x, (along value total s g [r]).toOption = some x := by
    intro r root
    obtain ⟨x, ok⟩ := exists_along_iff.2 (unfolds.of_below ⟨r, root, .refl⟩)
    exact ⟨x, toOption_eq_some_iff.2 ok⟩
  obtain ⟨values, found⟩ := exists_mapM defined
  refine ⟨values, found, ?_⟩
  rw [mapM_congr each] at found
  rw [along_of_walk walk, filterMap_of_mapM found]

end Along

theorem greatest_singleton (n : Nat) : greatest [n] = n := Nat.zero_max n

/-- No look-up misses in a table that is made along a walk that ends well: children have their values when their
class is taken up, and the roots have theirs in the end. -/
theorem isSome_of_walk (value : Node α → List β → β) (walk : (s.postOrder g roots).result = .ok visits) :
    (∀ before v after, visits = before ++ v :: after →
      ∀ d ∈ v.node.children, ((tabulate value before).get? d).isSome) ∧
    ∀ r ∈ roots, ((tabulate value visits).get? r).isSome := by
  constructor
  · intro before v after split d child
    exact isSome_tabulate.2 (before_of_postOrder walk split d child)
  · intro r root
    exact isSome_tabulate.2 (((grounded_of_postOrder walk).2 r).2 ⟨r, root, .refl⟩)

/-- The tree cost and the depth are there exactly if the choices below the roots unfold into trees. Then the tree
cost of a class is what its node costs above the tree costs of its children, its depth is one more than the
greatest depth of a child, and roots have the sum of their tree costs and the greatest of their depths. Along the
walk, whatever it computes, no look-up of a child or of a root misses. -/
theorem metrics_unfold (s : Selection α) (g : EGraph α) (roots : List ClassId) :
    ((∃ cost, s.treeCost g roots = .ok cost) ↔ s.Unfolds g roots) ∧
      ((∃ depth, s.depth g roots = .ok depth) ↔ s.Unfolds g roots) ∧
      (s.Unfolds g roots →
        (∀ c, s.Below g roots c → ∃ id node, s.choice? c = some id ∧ g.node? id = some node ∧
          (ExactCost α → ∃ costs,
            node.children.mapM (fun d => (s.treeCost g [d]).toOption) = some costs ∧
            s.treeCost g [c] = .ok (node.cost + Cost.sum costs)) ∧
          ∃ depths, node.children.mapM (fun d => (s.depth g [d]).toOption) = some depths ∧
            s.depth g [c] = .ok (1 + greatest depths)) ∧
        (ExactCost α → ∃ costs, roots.mapM (fun r => (s.treeCost g [r]).toOption) = some costs ∧
          s.treeCost g roots = .ok (Cost.sum costs)) ∧
        ∃ depths, roots.mapM (fun r => (s.depth g [r]).toOption) = some depths ∧
          s.depth g roots = .ok (greatest depths)) ∧
      ∀ visits, (s.postOrder g roots).result = .ok visits →
        ∀ (β : Type) (value : Node α → List β → β),
          (∀ before v after, visits = before ++ v :: after →
            ∀ d ∈ v.node.children, ((tabulate value before).get? d).isSome) ∧
          ∀ r ∈ roots, ((tabulate value visits).get? r).isSome := by
  simp only [treeCost_eq_along, depth_eq_along]
  refine ⟨exists_along_iff, exists_along_iff, ?_, fun _ walk _ value => isSome_of_walk value walk⟩
  intro unfolds
  refine ⟨?_, ?_, exists_along_roots greatest_singleton unfolds⟩
  · intro c below
    obtain ⟨_, ⟨id, node, choice, stored, _⟩, _⟩ := unfolds c below
    refine ⟨id, node, choice, stored, ?_, ?_⟩
    · exact fun _ => exists_along_below ExactCost.sum_singleton unfolds below choice stored
    · exact exists_along_below greatest_singleton unfolds below choice stored
  · exact fun _ => exists_along_roots ExactCost.sum_singleton unfolds

end Selection

section Folded
set_option maxRecDepth 100000

/-- A graph whose root uses class 1 twice, and class 2, which stands above class 1. -/
def foldedGraph : EGraph ℚ≥0 :=
  (Draft.ofNodes [((0 : UInt32), [(1 : UInt32), 2, 1], (1 : ℚ≥0)), (1, [], 1), (2, [1], 1)]
    [0]).toGraph.toOption.get (by decide +kernel)

def foldedSelection : Selection ℚ≥0 := [0, 1, 2].foldl (fun s c => s.choose ⟨c⟩ ⟨⟨c⟩, 0⟩) ∅

theorem foldedSelection_metrics :
    (foldedSelection.treeCost foldedGraph [⟨0⟩, ⟨2⟩, ⟨0⟩] = .ok (Cost.sum [5, 2, 5])) ∧
      foldedSelection.depth foldedGraph [⟨0⟩, ⟨2⟩, ⟨0⟩] = .ok (greatest [3, 2, 3]) := by
  obtain ⟨defined, _, unfolded, _⟩ :=
    Selection.metrics_unfold foldedSelection foldedGraph [⟨0⟩, ⟨2⟩, ⟨0⟩]
  have unfolds : foldedSelection.Unfolds foldedGraph [⟨0⟩, ⟨2⟩, ⟨0⟩] :=
    defined.1 ⟨12, by decide +kernel⟩
  obtain ⟨_, trees, depths, each', depth⟩ := unfolded unfolds
  obtain ⟨costs, each, tree⟩ := trees inferInstance
  have single : [⟨0⟩, ⟨2⟩, ⟨0⟩].mapM (fun r => (foldedSelection.treeCost foldedGraph [r]).toOption) =
      some [5, 2, 5] := by decide +kernel
  have single' : [⟨0⟩, ⟨2⟩, ⟨0⟩].mapM (fun r => (foldedSelection.depth foldedGraph [r]).toOption) =
      some [3, 2, 3] := by decide +kernel
  obtain rfl := Option.some.inj (each.symm.trans single)
  obtain rfl := Option.some.inj (each'.symm.trans single')
  exact ⟨tree, depth⟩

end Folded

end Extraction
