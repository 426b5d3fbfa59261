import Extraction.Proofs.Cost.Rational
import Extraction.Proofs.Cost.Multiples
import Extraction.Proofs.Selection.Enumeration

/-! Paths from the roots. A class is needed once for each of its occurrences among the roots and, for each use by
another class, as often as that one is needed. The tree cost pays a class for each of these paths and the dag
cost pays it once, so the two differ by what is paid again. -/
namespace Extraction

variable {α : Type} [Cost α]

namespace Selection

/-- How often each class is needed once a class has passed on its own need to its children. -/
def passOn (need : ClassId → Nat) (v : Visit α) (c : ClassId) : Nat :=
  need c + need v.eclass * v.node.children.count c

/-- How often each class is needed once all that are visited have passed on theirs, the latest first. -/
def spread (need : ClassId → Nat) : List (Visit α) → ClassId → Nat
  | [] => need
  | v :: visits => spread (passOn need v) visits

/-- The number of paths that lead from the roots to a class along chosen nodes. -/
def paths (s : Selection α) (g : EGraph α) (roots : List ClassId) : ClassId → Nat :=
  spread (fun c => roots.count c) (s.postOrder g roots).visits

/-- Each class counts as often as it is needed from the start and, for each use by a visited class, as often as
that one counts. -/
def Spreads (need : ClassId → Nat) (visits : List (Visit α)) (count : ClassId → Nat) : Prop :=
  ∀ c, count c = need c + (visits.map fun v => count v.eclass * v.node.children.count c).sum

variable {s : Selection α} {g : EGraph α} {roots : List ClassId} {visits visits' : List (Visit α)}
  {need count : ClassId → Nat}

/-- The class that was visited last is used by none of those visited. -/
theorem Grounded.unused {v : Visit α} (h : Grounded s g (v :: visits)) :
    ∀ u ∈ v :: visits, v.eclass ∉ u.node.children := by
  obtain _ | ⟨rest, _, below, fresh⟩ := h
  refine List.forall_mem_cons.2 ⟨fun child => fresh (below _ child), ?_⟩
  intro u mem child
  have use := (uses_iff_of_chosenMember (rest.proper u mem)).2 child
  exact fresh (rest.leads (List.mem_map_of_mem mem) (.single use)).1

omit [Cost α] in
theorem sum_uses_eq_zero {c : ClassId} (unused : ∀ v ∈ visits, c ∉ v.node.children) :
    (visits.map fun v => count v.eclass * v.node.children.count c).sum = 0 := by
  rw [List.sum_eq_zero_iff_forall_eq_nat]
  intro n mem
  obtain ⟨v, visited, rfl⟩ := List.mem_map.1 mem
  rw [List.count_eq_zero_of_not_mem (unused v visited), Nat.mul_zero]

omit [Cost α] in
theorem passOn_of_unused {v : Visit α} {c : ClassId} (unused : c ∉ v.node.children) :
    passOn need v c = need c := by
  rw [passOn, List.count_eq_zero_of_not_mem unused, Nat.mul_zero, Nat.add_zero]

omit [Cost α] in
/-- What is used by no visited class keeps its need. -/
theorem spread_of_unused {c : ClassId} (unused : ∀ v ∈ visits, c ∉ v.node.children) :
    spread need visits c = need c := by
  induction visits generalizing need with
  | nil => rfl
  | cons v visits ih =>
    obtain ⟨first, others⟩ := List.forall_mem_cons.1 unused
    rw [spread, ih others, passOn_of_unused first]

/-- The class visited last counts as often as it is needed, and passes that on. -/
theorem Grounded.spreads_cons {v : Visit α} (h : Grounded s g (v :: visits)) :
    Spreads need (v :: visits) count ↔ Spreads (passOn need v) visits count := by
  obtain ⟨self, others⟩ := List.forall_mem_cons.1 h.unused
  have step (own : count v.eclass = need v.eclass) (c : ClassId) :
      need c + ((v :: visits).map fun u => count u.eclass * u.node.children.count c).sum =
        passOn need v c + (visits.map fun u => count u.eclass * u.node.children.count c).sum := by
    rw [passOn, List.map_cons, List.sum_cons, own, Nat.add_assoc]
  -- Either way the class visited last gets nothing but its need, since nothing uses it.
  constructor
  · intro spreads c
    have own : count v.eclass = need v.eclass := by
      rw [spreads v.eclass, sum_uses_eq_zero h.unused, Nat.add_zero]
    rw [← step own, ← spreads c]
  · intro spreads c
    have own : count v.eclass = need v.eclass := by
      rw [spreads v.eclass, sum_uses_eq_zero others, passOn_of_unused self, Nat.add_zero]
    rw [step own, ← spreads c]

/-- Along a walk the counts are there and determined. -/
theorem Grounded.spreads_iff (h : Grounded s g visits) :
    Spreads need visits count ↔ count = spread need visits := by
  induction h generalizing need with
  | nil =>
    simp only [Spreads, List.map_nil, List.sum_nil, Nat.add_zero]
    exact funext_iff.symm
  | cons rest proper below fresh ih =>
    rw [(Grounded.cons rest proper below fresh).spreads_cons, ih, spread]

omit [Cost α] in
theorem Spreads.of_perm (spreads : Spreads need visits count) (same : visits.Perm visits') :
    Spreads need visits' count := by
  intro c
  rw [spreads c, (same.map _).sum_eq]

/-- What a class is worth is paid in the end by the classes themselves: each pays its own price for every time it
is needed, and what its children are worth is passed on to them. -/
theorem Grounded.sum_spread {M : Type} [AddCommMonoid M] (h : Grounded s g visits)
    (need : ClassId → Nat) {worth : ClassId → M} {price : Node α → M}
    (recursion : ∀ v ∈ visits, worth v.eclass = price v.node + (v.node.children.map worth).sum) :
    (visits.map fun v => need v.eclass • worth v.eclass).sum =
      (visits.map fun v => spread need visits v.eclass • price v.node).sum := by
  -- Along the walk, the latest first: nothing uses the latest class, so its need is settled.
  induction h generalizing need with
  | nil => rfl
  | @cons v visits rest proper below fresh ih =>
    obtain ⟨first, others⟩ := List.forall_mem_cons.1 recursion
    have own : spread need (v :: visits) v.eclass = need v.eclass :=
      spread_of_unused (Grounded.cons rest proper below fresh).unused
    have children : (v.node.children.map worth).sum =
        (visits.map fun u => v.node.children.count u.eclass • worth u.eclass).sum := by
      rw [sum_map_eq_sum_counts rest.nodup below, List.map_map]
      rfl
    have passed : (visits.map fun u => passOn need v u.eclass • worth u.eclass).sum =
        need v.eclass • (v.node.children.map worth).sum +
          (visits.map fun u => need u.eclass • worth u.eclass).sum := by
      rw [children, List.smul_sum, List.map_map, ← List.sum_map_add]
      refine congrArg List.sum (List.map_congr_left fun u _ => ?_)
      rw [passOn, add_nsmul, mul_nsmul', add_comm]
      rfl
    calc ((v :: visits).map fun u => need u.eclass • worth u.eclass).sum
        = need v.eclass • price v.node + (need v.eclass • (v.node.children.map worth).sum +
            (visits.map fun u => need u.eclass • worth u.eclass).sum) := by
          rw [List.map_cons, List.sum_cons, first, nsmul_add, add_assoc]
      _ = need v.eclass • price v.node +
            (visits.map fun u => spread (passOn need v) visits u.eclass • price u.node).sum := by
          rw [← passed, ih (passOn need v) others]
      _ = ((v :: visits).map fun u => spread need (v :: visits) u.eclass • price u.node).sum := by
          rw [List.map_cons, List.sum_cons, own, spread]

section Walk
variable (walk : (s.postOrder g roots).result = .ok visits)
include walk

theorem paths_of_walk : s.paths g roots = spread (fun c => roots.count c) visits.reverse := by
  rw [paths, ← (result_eq_ok.1 walk).2, List.reverse_reverse]

/-- The numbers of paths are the only ones that each class gets from the roots and from what uses it. -/
theorem spreads_iff_of_enumerates (enumerates : s.Enumerates g roots visits') :
    Spreads (fun c => roots.count c) visits' count ↔ count = s.paths g roots := by
  have same := ((enumerates_of_postOrder walk).perm enumerates).symm.trans visits.reverse_perm.symm
  rw [paths_of_walk walk, ← (grounded_of_postOrder walk).1.spreads_iff]
  exact ⟨fun spreads => spreads.of_perm same, fun spreads => spreads.of_perm same.symm⟩

/-- Each class below the roots lies on a path. -/
theorem paths_pos {c : ClassId} (below : s.Below g roots c) : 0 < s.paths g roots c := by
  have enumerates := enumerates_of_postOrder walk
  have spreads := (spreads_iff_of_enumerates walk enumerates).2 rfl
  obtain ⟨r, root, path⟩ := below
  induction path with
  | refl =>
    rw [spreads r]
    exact Nat.add_pos_left (List.count_pos_iff.2 root) _
  | @tail c d before use ih =>
    obtain ⟨v, mem, rfl⟩ := List.mem_map.1 ((enumerates.below c).2 ⟨r, root, before⟩)
    have child := (uses_iff_of_chosen (enumerates.chosen v mem)).1 use
    have part : s.paths g roots v.eclass * v.node.children.count d ≤
        (visits.map fun v => s.paths g roots v.eclass * v.node.children.count d).sum :=
      List.le_sum_of_mem (List.mem_map_of_mem mem)
    rw [spreads d]
    exact Nat.add_pos_right _ (Nat.lt_of_lt_of_le (Nat.mul_pos ih (List.count_pos_iff.2 child)) part)

/-- What the walk adds up for the roots is the cost of each class for each path to it. -/
theorem sum_roots_eq_sum_paths [ExactCost α] :
    Cost.sum (roots.filterMap (tabulate Node.treeCost visits).get?) =
      Cost.sum (visits.map fun v => Cost.times (s.paths g roots v.eclass) v.node.cost) := by
  obtain ⟨grounded, visited⟩ := grounded_of_postOrder walk
  let := ExactCost.addCommMonoid α
  -- No look-up below the roots misses, so a value for what is not in the table does no harm.
  let worth (c : ClassId) : α := ((tabulate Node.treeCost visits).get? c).getD 0
  have recursion : ∀ v ∈ visits.reverse,
      worth v.eclass = v.node.cost + (v.node.children.map worth).sum := by
    intro v mem
    have here := (visited _).1 (List.mem_map_of_mem (List.mem_reverse.1 mem))
    obtain ⟨u, values, member, inner, held⟩ := tabulated_of_walk Node.treeCost walk here
    obtain rfl := Except.ok.inj (member.symm.trans (grounded.proper v mem))
    rw [map_getD_of_mapM inner, ← ExactCost.sum_eq_sum]
    exact congrArg (Option.getD · 0) held
  have inside : ∀ r ∈ roots, r ∈ visits.reverse.map Visit.eclass := by
    intro r root
    rw [List.map_reverse, List.mem_reverse]
    exact (visited r).2 ⟨r, root, .refl⟩
  have values : roots.filterMap (tabulate Node.treeCost visits).get? = roots.map worth := by
    have defined : ∀ r ∈ roots, ∃ cost, (tabulate Node.treeCost visits).get? r = some cost := by
      intro r root
      obtain ⟨_, _, _, _, held⟩ := tabulated_of_walk Node.treeCost walk ⟨r, root, .refl⟩
      exact ⟨_, held⟩
    obtain ⟨costs, inner⟩ := exists_mapM defined
    rw [filterMap_of_mapM inner, map_getD_of_mapM inner]
  calc Cost.sum (roots.filterMap (tabulate Node.treeCost visits).get?)
      = (roots.map worth).sum := by rw [values, ExactCost.sum_eq_sum]
    _ = (visits.reverse.map fun v => roots.count v.eclass • worth v.eclass).sum := by
        rw [sum_map_eq_sum_counts grounded.nodup inside, List.map_map]
        rfl
    _ = (visits.reverse.map fun v => s.paths g roots v.eclass • v.node.cost).sum := by
        rw [paths_of_walk walk]
        exact grounded.sum_spread (fun c => roots.count c) recursion
    _ = Cost.sum (visits.map fun v => Cost.times (s.paths g roots v.eclass) v.node.cost) := by
        rw [List.map_reverse, List.sum_reverse, ExactCost.sum_eq_sum]
        simp only [ExactCost.times_eq_nsmul]

end Walk

/-- Where there is a tree cost, it is the sum over the classes below the roots of what each costs as many times as
paths lead to it, and the dag cost, which is there too, is the sum of what each costs once. So the dag cost is the
lesser one, and they are equal exactly if every class with several paths to it is free. -/
theorem treeCost_counts_paths [StrictCost α] {total : α} (ok : s.treeCost g roots = .ok total) :
    (∃ visits, s.Enumerates g roots visits) ∧ ∀ visits, s.Enumerates g roots visits →
      (∀ count : ClassId → Nat,
        (∀ c, count c =
          roots.count c + (visits.map fun v => count v.eclass * v.node.children.count c).sum) ↔
        count = s.paths g roots) ∧
      total = Cost.sum (visits.map fun v => Cost.times (s.paths g roots v.eclass) v.node.cost) ∧
      ∃ dag, s.dagCost g roots = .ok dag ∧ dag = Cost.sum (visits.map fun v => v.node.cost) ∧
        ¬ total < dag ∧
        (dag = total ↔ ∀ v ∈ visits, 1 < s.paths g roots v.eclass → v.node.cost = 0) := by
  obtain ⟨walked, walk, rfl⟩ := treeCost_eq_ok.1 ok
  refine ⟨⟨walked, enumerates_of_postOrder walk⟩, ?_⟩
  intro visits enumerates
  have same := (enumerates_of_postOrder walk).perm enumerates
  have pos : ∀ v ∈ visits, 0 < s.paths g roots v.eclass := fun v mem =>
    paths_pos walk ((enumerates.below _).1 (List.mem_map_of_mem mem))
  rw [sum_roots_eq_sum_paths walk, ExactCost.sum_perm (same.map _)]
  refine ⟨fun _ => spreads_iff_of_enumerates walk enumerates, rfl, _,
    dagCost_eq_ok_iff.2 ⟨visits, enumerates, rfl⟩, rfl, ?_, ?_⟩
  · apply ExactCost.not_sum_lt_sum
    rw [List.forall₂_map_left_iff, List.forall₂_map_right_iff, List.forall₂_same]
    exact fun v mem => ExactCost.not_times_lt (pos v mem) v.node.cost
  · rw [StrictCost.sum_map_eq_iff fun v mem => ExactCost.not_times_lt (pos v mem) v.node.cost]
    exact forall₂_congr fun v mem => StrictCost.eq_times_iff (pos v mem) v.node.cost

end Selection

section Reused
set_option maxRecDepth 100000

/-- A graph whose class 3 is free, and used three times below the root. -/
def reusedGraph : EGraph ℚ≥0 :=
  (Draft.ofNodes [((0 : UInt32), [(1 : UInt32), 2], (1 : ℚ≥0)), (1, [3, 3], 1), (2, [3], 1), (3, [], 0)]
    [0]).toGraph.toOption.get (by decide +kernel)

def reusedSelection : Selection ℚ≥0 := [0, 1, 2, 3].foldl (fun s c => s.choose ⟨c⟩ ⟨⟨c⟩, 0⟩) ∅

/-- What is shared below the root costs nothing, so that the dag cost is no less than the tree cost. -/
theorem reusedSelection_costs : reusedSelection.paths reusedGraph [⟨0⟩] ⟨3⟩ = 3 ∧
    reusedSelection.treeCost reusedGraph [⟨0⟩] = .ok 3 ∧
    reusedSelection.dagCost reusedGraph [⟨0⟩] = .ok 3 := by
  have tree : reusedSelection.treeCost reusedGraph [⟨0⟩] = .ok 3 := by decide +kernel
  have free : ∀ e ∈ reusedSelection.choices.toList, ∀ node ∈ (reusedGraph.node? e.2).toList,
      1 < reusedSelection.paths reusedGraph [⟨0⟩] e.1 → node.cost = 0 := by decide +kernel
  obtain ⟨⟨visits, enumerates⟩, counted⟩ := Selection.treeCost_counts_paths tree
  obtain ⟨_, _, dag, ok, _, _, equal⟩ := counted visits enumerates
  refine ⟨by decide +kernel, tree, ?_⟩
  rw [ok, equal.2]
  intro v mem
  obtain ⟨_, choice, stored⟩ := Selection.chosen_eq_ok.1 (enumerates.chosen v mem)
  exact free (v.eclass, v.id) (OrderedMap.get?_eq_some_iff.1 choice) v.node (Option.mem_toList.2 stored)

end Reused

end Extraction
