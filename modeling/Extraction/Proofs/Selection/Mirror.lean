import Extraction.Proofs.Cost.Counting
import Extraction.Proofs.Cost.Sums
import Extraction.Proofs.Selection.Validity

/-! Selections that mirror each other: for the same classes they choose nodes above the same classes, maybe
in different graphs and at different costs. A mirror of a valid selection is valid and as deep, and where its
nodes are no dearer, neither are its tree cost and its dag cost. -/
namespace Extraction
variable {α : Type} [Cost α]

namespace Selection

/-- Where `s` chooses in `g`, `t` chooses in `h` a node with the same children up to their order. -/
structure Mirrors (s : Selection α) (g : EGraph α) (t : Selection α) (h : EGraph α) : Prop where
  roots : h.roots = g.roots
  chosen : ∀ c, (t.choice? c).isSome → (s.choice? c).isSome
  nodes : ∀ c v, s.chosenMember g c = .ok v →
    ∃ u, t.chosenMember h c = .ok u ∧ v.node.children.Perm u.node.children

/-- No class has a dearer node in `t` than in `s`. -/
def NoDearer (s : Selection α) (g : EGraph α) (t : Selection α) (h : EGraph α) : Prop :=
  ∀ c v u, s.chosenMember g c = .ok v → t.chosenMember h c = .ok u → ¬ v.node.cost < u.node.cost

variable {s t : Selection α} {g h : EGraph α}

theorem Uses.chosen {c d : ClassId} (uses : s.Uses g c d) : (s.choice? c).isSome := by
  obtain ⟨id, _, choice, _⟩ := uses
  rw [choice]
  rfl

namespace Mirrors

theorem exists_pair (mirrors : Mirrors s g t h) (proper : s.Proper g) {c : ClassId}
    (chosen : (s.choice? c).isSome) : ∃ v u, s.chosenMember g c = .ok v ∧
      t.chosenMember h c = .ok u ∧ v.node.children.Perm u.node.children := by
  obtain ⟨v, member⟩ := proper.exists_chosenMember chosen
  obtain ⟨u, member', same⟩ := mirrors.nodes c v member
  exact ⟨v, u, member, member', same⟩

theorem uses_eq (mirrors : Mirrors s g t h) (proper : s.Proper g) : t.Uses h = s.Uses g := by
  funext c d
  have pair : (s.choice? c).isSome → (t.Uses h c d ↔ s.Uses g c d) := by
    intro chosen
    obtain ⟨v, u, member, member', same⟩ := mirrors.exists_pair proper chosen
    rw [uses_iff_of_chosenMember member, uses_iff_of_chosenMember member', same.mem_iff]
  apply propext
  constructor
  · intro uses
    exact (pair (mirrors.chosen c uses.chosen)).1 uses
  · intro uses
    exact (pair uses.chosen).2 uses

theorem below_eq (mirrors : Mirrors s g t h) (proper : s.Proper g) (roots : List ClassId) :
    t.Below h roots = s.Below g roots := by
  funext c
  rw [Below, Below, mirrors.uses_eq proper]

theorem below_iff (mirrors : Mirrors s g t h) (proper : s.Proper g) {c : ClassId} :
    t.Below h h.roots c ↔ s.Below g g.roots c := by
  rw [mirrors.below_eq proper, mirrors.roots]

theorem valid (mirrors : Mirrors s g t h) (valid : s.Valid g) : t.Valid h where
  rooted := by
    rw [mirrors.roots]
    exact valid.rooted
  proper := by
    intro c id choice
    have chosen := mirrors.chosen c (by rw [choice]; rfl)
    obtain ⟨v, u, _, member, _⟩ := mirrors.exists_pair valid.proper chosen
    obtain ⟨_, choice', stored, owner⟩ := chosenMember_eq_ok.1 member
    obtain rfl := Option.some.inj (choice.symm.trans choice')
    exact ⟨u.node, stored, owner⟩
  complete := by
    intro c below
    have chosen := valid.complete c ((mirrors.below_iff valid.proper).1 below)
    obtain ⟨v, u, _, member, _⟩ := mirrors.exists_pair valid.proper chosen
    rw [(chosenMember_eq_ok.1 member).2.1]
    rfl
  acyclic := by
    intro c below
    rw [mirrors.uses_eq valid.proper]
    exact valid.acyclic c ((mirrors.below_iff valid.proper).1 below)

theorem exists_postOrder (mirrors : Mirrors s g t h) (proper : s.Proper g) {roots : List ClassId}
    {visits : List (Visit α)} (walk : (s.postOrder g roots).result = .ok visits) :
    ∃ visits', (t.postOrder h roots).result = .ok visits' := by
  refine (postOrder_ok_iff t h roots).2 fun c below => ?_
  rw [mirrors.below_eq proper] at below
  obtain ⟨⟨v, member⟩, acyclic⟩ := (postOrder_ok_iff s g roots).1 ⟨visits, walk⟩ c below
  obtain ⟨u, member', _⟩ := mirrors.nodes c v member
  rw [mirrors.uses_eq proper]
  exact ⟨⟨u, member'⟩, acyclic⟩

/-- Depth depends on which classes are used, and on nothing else. -/
theorem depth_eq (mirrors : Mirrors s g t h) (proper : s.Proper g) {roots : List ClassId} {d : Nat}
    (depth : s.depth g roots = .ok d) : t.depth h roots = .ok d := by
  obtain ⟨visits, walk, rfl⟩ := depth_eq_ok.1 depth
  obtain ⟨visits', walk'⟩ := mirrors.exists_postOrder proper walk
  obtain ⟨grounded, visited⟩ := grounded_of_postOrder walk
  -- Along the walk of `s`; the walk of the mirror comes past the same classes in its own order.
  have all := grounded.visit_induction (Q := fun c =>
    (tabulate Node.depthAbove visits').get? c = (tabulate Node.depthAbove visits).get? c) ?_
  · refine depth_eq_ok.2 ⟨visits', walk', congrArg greatest (List.filterMap_congr fun r root => ?_)⟩
    obtain ⟨v, mem, rfl⟩ := List.mem_map.1 ((visited r).2 ⟨r, root, .refl⟩)
    exact all v (List.mem_reverse.2 mem)
  · intro v mem below
    have here := (visited _).1 (List.mem_map_of_mem (List.mem_reverse.1 mem))
    have here' := here
    rw [← mirrors.below_eq proper] at here'
    obtain ⟨w, depths, chosen, inner, held⟩ := tabulated_of_walk Node.depthAbove walk here
    obtain rfl := Except.ok.inj ((grounded.proper v mem).symm.trans chosen)
    obtain ⟨u, depths', member, inner', held'⟩ := tabulated_of_walk Node.depthAbove walk' here'
    obtain ⟨u', member', same⟩ := mirrors.nodes _ v chosen
    obtain rfl := Except.ok.inj (member.symm.trans member')
    rw [mapM_congr fun d child => below d (same.mem_iff.2 child)] at inner'
    have equal : greatest depths' = greatest depths := greatest_perm (perm_of_mapM same.symm inner' inner)
    rw [held, held', Node.depthAbove, Node.depthAbove, equal]

end Mirrors

/-- To choose the very same nodes is to mirror, at no other costs. -/
theorem mirrors_of_same [OrderedCost α] (roots : h.roots = g.roots)
    (chosen : ∀ c, (t.choice? c).isSome → (s.choice? c).isSome)
    (same : ∀ c v, s.chosenMember g c = .ok v → t.chosenMember h c = .ok v) :
    Mirrors s g t h ∧ NoDearer s g t h := by
  constructor
  · exact ⟨roots, chosen, fun c v member => ⟨v, same c v member, .refl _⟩⟩
  · intro c v u member member'
    obtain rfl := Except.ok.inj ((same c v member).symm.trans member')
    exact OrderedCost.irrefl _

/-- The cost of the node that is chosen for a class. -/
def chosenCost? (s : Selection α) (g : EGraph α) (c : ClassId) : Option α :=
  (s.chosen g c).toOption.map fun v => v.node.cost

theorem Drawn.costs {visits : List (Visit α)} (drawn : Drawn s g visits) :
    (visits.map Visit.eclass).mapM (s.chosenCost? g) = some (visits.map fun v => v.node.cost) := by
  rw [mapM_eq_some_iff, List.forall₂_map_left_iff, List.forall₂_map_right_iff, List.forall₂_same]
  intro v mem
  rw [chosenCost?, drawn.chosen v mem]
  rfl

/-- A cost of selections that all valid ones have, and that does not rise where nodes get no dearer. -/
structure Metric (metric : Selection α → EGraph α → List ClassId → Except CheckError α) : Prop where
  defined : ∀ {s : Selection α} {g : EGraph α}, s.Valid g → ∃ a, metric s g g.roots = .ok a
  mono : ∀ {s t : Selection α} {g h : EGraph α} {a b : α}, s.Valid g → Mirrors s g t h →
    NoDearer s g t h → metric s g g.roots = .ok a → metric t h h.roots = .ok b → ¬ a < b

/-- Visits that take in all classes below the roots are what a survey takes up, and maybe more. -/
theorem Drawn.exists_survey {visits : List (Visit α)} {roots : List ClassId}
    (drawn : s.Drawn g visits) (inside : ∀ r ∈ roots, r ∈ g.classes)
    (closed : ∀ c, s.Below g roots c → c ∈ visits.map Visit.eclass) :
    ∃ taken, (s.survey g roots).result = .ok taken ∧ taken.Subperm visits := by
  obtain ⟨taken, walk⟩ := (survey_ok_iff inside).2 fun c below => by
    obtain ⟨v, mem, rfl⟩ := List.mem_map.1 (closed c below)
    exact ⟨v, drawn.chosen v mem⟩
  obtain ⟨drawn', visited⟩ := drawn_of_survey walk
  refine ⟨taken, walk, List.subperm_of_subset (List.Nodup.of_map _ drawn'.nodup) ?_⟩
  intro v mem
  have below := (visited v.eclass).1 (List.mem_map_of_mem mem)
  exact drawn.mem_of_chosen (closed _ below) (drawn'.chosen v mem)

section Exact
variable [ExactCost α]

theorem metric_dagCost : Metric (α := α) dagCost where
  defined := Valid.exists_dagCost
  mono := by
    intro s t g h a b valid mirrors cheap cost cost'
    obtain ⟨visits, walk, rfl⟩ := dagCost_eq_ok.1 cost
    obtain ⟨visits', walk', rfl⟩ := dagCost_eq_ok.1 cost'
    obtain ⟨drawn, visited⟩ := drawn_of_survey walk
    obtain ⟨drawn', visited'⟩ := drawn_of_survey walk'
    have same : (visits.map Visit.eclass).Perm (visits'.map Visit.eclass) := by
      apply (List.perm_ext_iff_of_nodup drawn.nodup drawn'.nodup).2
      intro c
      rw [visited, visited', mirrors.below_iff valid.proper]
    have bounded : ∀ c ∈ visits.map Visit.eclass, ∃ x y, s.chosenCost? g c = some x ∧
        t.chosenCost? h c = some y ∧ ¬ x < y := by
      intro c mem
      have chosen := valid.complete c ((visited c).1 mem)
      obtain ⟨v, u, member, member', _⟩ := mirrors.exists_pair valid.proper chosen
      refine ⟨v.node.cost, u.node.cost, ?_, ?_, cheap c v u member member'⟩
      · rw [chosenCost?, (chosenMember_eq_ok_iff.1 member).1]
        rfl
      · rw [chosenCost?, (chosenMember_eq_ok_iff.1 member').1]
        rfl
    obtain ⟨costs, costs', values, values', lower⟩ := ExactCost.exists_sums bounded
    obtain rfl := Option.some.inj (values.symm.trans drawn.costs)
    rwa [ExactCost.sum_perm (perm_of_mapM same values' drawn'.costs)] at lower

/-- Along both walks at once, the tree cost of a class is no higher in the mirror. -/
theorem Mirrors.not_tabulate_lt (mirrors : Mirrors s g t h) (cheap : NoDearer s g t h)
    {visits visits' : List (Visit α)} (grounded : s.Grounded g visits.reverse)
    (grounded' : t.Grounded h visits'.reverse)
    (visited : ∀ c ∈ visits.map Visit.eclass, c ∈ visits'.map Visit.eclass) :
    ∀ c ∈ visits.map Visit.eclass, ∃ x y, (tabulate Node.treeCost visits).get? c = some x ∧
      (tabulate Node.treeCost visits').get? c = some y ∧ ¬ x < y := by
  have tabulated := grounded.tabulated Node.treeCost
  have tabulated' := grounded'.tabulated Node.treeCost
  rw [List.reverse_reverse] at tabulated tabulated'
  -- Along the walk of `s`; the mirror has visited the same children, maybe in another order.
  have all := grounded.visit_induction (Q := fun c => ∃ x y,
    (tabulate Node.treeCost visits).get? c = some x ∧
      (tabulate Node.treeCost visits').get? c = some y ∧ ¬ x < y) ?_
  · intro c mem
    obtain ⟨v, among, rfl⟩ := List.mem_map.1 mem
    exact all v (List.mem_reverse.2 among)
  · intro v mem below
    obtain ⟨values, inner, held⟩ := tabulated v mem
    have member := grounded.proper v mem
    obtain ⟨u, among, owner⟩ := List.mem_map.1
      (visited v.eclass (List.mem_map_of_mem (List.mem_reverse.1 mem)))
    obtain ⟨values', inner', held'⟩ := tabulated' u (List.mem_reverse.2 among)
    have member' := grounded'.proper u (List.mem_reverse.2 among)
    rw [owner] at held' member'
    obtain ⟨u', again, same⟩ := mirrors.nodes _ v member
    obtain rfl := Except.ok.inj (member'.symm.trans again)
    obtain ⟨costs, costs', first, second, lower⟩ := ExactCost.exists_sums below
    obtain rfl := Option.some.inj (inner.symm.trans first)
    rw [ExactCost.sum_perm (perm_of_mapM same second inner')] at lower
    refine ⟨_, _, held, held', ?_⟩
    exact ExactCost.not_add_lt_add (cheap _ v u member member') lower

theorem metric_treeCost : Metric (α := α) treeCost where
  defined := Valid.exists_treeCost
  mono := by
    intro s t g h a b valid mirrors cheap cost cost'
    obtain ⟨visits, walk, rfl⟩ := treeCost_eq_ok.1 cost
    obtain ⟨visits', walk', rfl⟩ := treeCost_eq_ok.1 cost'
    obtain ⟨grounded, visited⟩ := grounded_of_postOrder walk
    obtain ⟨grounded', visited'⟩ := grounded_of_postOrder walk'
    have bounded : ∀ c ∈ g.roots, ∃ x y, (tabulate Node.treeCost visits).get? c = some x ∧
        (tabulate Node.treeCost visits').get? c = some y ∧ ¬ x < y := by
      intro c root
      apply mirrors.not_tabulate_lt cheap grounded grounded'
      · intro d mem
        rwa [visited', mirrors.below_iff valid.proper, ← visited]
      · exact (visited c).2 ⟨c, root, .refl⟩
    obtain ⟨costs, costs', values, values', lower⟩ := ExactCost.exists_sums bounded
    rwa [mirrors.roots, filterMap_of_mapM values, filterMap_of_mapM values']

end Exact

end Selection

end Extraction
