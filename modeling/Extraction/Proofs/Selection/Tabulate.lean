import Extraction.Proofs.Selection.Walk
import Extraction.Proofs.Collections
import Extraction.Selection.Measures

/-! Values that are computed along a walk in post-order: when a class is taken up, the values of all that
its node uses are there, and they do not change any more. -/
namespace Extraction
open Std

variable {α β : Type} [Cost α]

omit [Cost α] in
theorem tabulate_concat (value : Node α → List β → β) (visits : List (Visit α)) (v : Visit α) :
    tabulate value (visits ++ [v]) = (tabulate value visits).insert v.eclass
      (value v.node (v.node.children.filterMap fun c => (tabulate value visits).get? c)) := by
  rw [tabulate, List.foldl_append]
  rfl

omit [Cost α] in
/-- There are values for the visited classes and for no others. -/
theorem isSome_tabulate {value : Node α → List β → β} {visits : List (Visit α)} {c : ClassId} :
    ((tabulate value visits).get? c).isSome ↔ c ∈ visits.map Visit.eclass := by
  induction visits using List.reverseRecOn with
  | nil => exact ⟨fun held => (by cases held), fun mem => (by cases mem)⟩
  | append_singleton visits v ih =>
    rw [tabulate_concat, get?_insert, List.map_append, List.mem_append, List.map_singleton,
      List.mem_singleton, ← ih]
    split
    · rename_i same
      simp [same]
    · rename_i other
      simp [Ne.symm other]

/-- The tree cost of roots is the sum of the values that the walk computes for them. -/
theorem Selection.treeCost_eq_ok {s : Selection α} {g : EGraph α} {roots : List ClassId} {total : α} :
    s.treeCost g roots = .ok total ↔ ∃ visits, (s.postOrder g roots).result = .ok visits ∧
      Cost.sum (roots.filterMap (tabulate Node.treeCost visits).get?) = total := by
  unfold treeCost
  cases (s.postOrder g roots).result with
  | error e => simp
  | ok visits => simp

/-- The dag cost of roots is the sum of the costs of what the survey takes up. -/
theorem Selection.dagCost_eq_ok {s : Selection α} {g : EGraph α} {roots : List ClassId} {total : α} :
    s.dagCost g roots = .ok total ↔ ∃ visits, (s.survey g roots).result = .ok visits ∧
      Cost.sum (visits.map fun v => v.node.cost) = total := by
  unfold dagCost
  cases (s.survey g roots).result with
  | error e => simp
  | ok visits => simp

/-- The depth of a node above children of these depths. -/
def Node.depthAbove (_ : Node α) (below : List Nat) : Nat := 1 + greatest below

/-- The depth of roots is the greatest that the walk computes for one of them. -/
theorem Selection.depth_eq_ok {s : Selection α} {g : EGraph α} {roots : List ClassId} {d : Nat} :
    s.depth g roots = .ok d ↔ ∃ visits, (s.postOrder g roots).result = .ok visits ∧
      greatest (roots.filterMap (tabulate Node.depthAbove visits).get?) = d := by
  unfold depth
  cases (s.postOrder g roots).result with
  | error e => simp
  | ok visits =>
    constructor
    · exact fun ok => ⟨visits, rfl, Except.ok.inj ok⟩
    · rintro ⟨_, ok, rfl⟩
      obtain rfl := Except.ok.inj ok
      rfl

/-- The active nodes are those that the survey takes up, in ascending order. -/
theorem Selection.activeNodes_eq_ok {s : Selection α} {g : EGraph α} {roots : List ClassId}
    {active : List NodeId} : s.activeNodes g roots = .ok active ↔
      ∃ visits, (s.survey g roots).result = .ok visits ∧
        active = (visits.map Visit.id).mergeSort NodeId.le := by
  constructor
  · intro ok
    obtain ⟨visits, walk, sorted⟩ := exists_of_bind_eq_ok ok
    exact ⟨visits, walk, (Except.ok.inj sorted).symm⟩
  · rintro ⟨visits, walk, rfl⟩
    rw [activeNodes, walk]
    rfl

namespace Selection.Grounded

variable {s : Selection α} {g : EGraph α} {visits : List (Visit α)}

/-- The value of a class is that of its node above the values of its children. -/
theorem tabulated (value : Node α → List β → β) (h : Grounded s g visits) :
    ∀ v ∈ visits, ∃ below, v.node.children.mapM (tabulate value visits.reverse).get? = some below ∧
      (tabulate value visits.reverse).get? v.eclass = some (value v.node below) := by
  induction h with
  | nil => exact fun v mem => by cases mem
  | @cons v visits rest proper below fresh ih =>
    have kept : ∀ c ∈ visits.map Visit.eclass,
        (tabulate value (v :: visits).reverse).get? c = (tabulate value visits.reverse).get? c := by
      intro c mem
      rw [List.reverse_cons, tabulate_concat, get?_insert, if_neg]
      exact fun same => fresh (same ▸ mem)
    have defined : ∀ d ∈ v.node.children,
        ∃ y, (tabulate value visits.reverse).get? d = some y := by
      intro d child
      obtain ⟨u, earlier, rfl⟩ := List.mem_map.1 (below d child)
      obtain ⟨_, _, held⟩ := ih u earlier
      exact ⟨_, held⟩
    obtain ⟨values, inner⟩ := exists_mapM defined
    rw [List.forall_mem_cons]
    refine ⟨⟨values, ?_, ?_⟩, ?_⟩
    · rw [← inner]
      exact mapM_congr fun d child => kept d (below d child)
    · rw [List.reverse_cons, tabulate_concat, get?_insert, if_pos rfl, filterMap_of_mapM inner]
    · intro u earlier
      obtain ⟨below', values', held⟩ := ih u earlier
      refine ⟨below', ?_, ?_⟩
      · rw [← values']
        apply mapM_congr
        intro d child
        apply kept
        have use := (uses_iff_of_chosenMember (rest.proper u earlier)).2 child
        exact (rest.leads (List.mem_map_of_mem earlier) (.single use)).1
      · rw [kept u.eclass (List.mem_map_of_mem earlier), held]

end Selection.Grounded

/-- Along a walk that ends well, each class below the roots has the value of its node above the values of its
children. -/
theorem Selection.tabulated_of_walk {s : Selection α} {g : EGraph α} {roots : List ClassId}
    {visits : List (Visit α)} (value : Node α → List β → β)
    (walk : (s.postOrder g roots).result = .ok visits) {c : ClassId} (below : s.Below g roots c) :
    ∃ v values, s.chosenMember g c = .ok v ∧
      v.node.children.mapM (tabulate value visits).get? = some values ∧
      (tabulate value visits).get? c = some (value v.node values) := by
  obtain ⟨grounded, visited⟩ := grounded_of_postOrder walk
  obtain ⟨v, mem, rfl⟩ := List.mem_map.1 ((visited c).2 below)
  have visit := List.mem_reverse.2 mem
  obtain ⟨values, inner, held⟩ := grounded.tabulated value v visit
  rw [List.reverse_reverse] at inner held
  exact ⟨v, values, grounded.proper v visit, inner, held⟩

end Extraction
