import Extraction.Proofs.Double.Counting
import Extraction.Proofs.Extract.Acyclic
import Extraction.Proofs.Extract.Records
import Extraction.Proofs.Relaxation.Fixpoint
import Extraction.Proofs.Selection.Tabulate

/-! The depth that extraction by depth attains. A class that improves need not improve those above it, so a
choice may have been made for depths that have changed since; when the run is over, the total of every class
is the depth of its selection all the same, and no selection is less deep. -/
namespace Extraction
open Std

variable {α : Type} [Cost α]

omit [Cost α] in
/-- A depth counts visits. -/
theorem tabulate_depth_le {visits : List (Visit α)} {c : ClassId} {d : Nat}
    (held : (tabulate Node.depthAbove visits).get? c = some d) : d ≤ visits.length := by
  induction visits using List.reverseRecOn generalizing c d with
  | nil => cases held
  | append_singleton visits v ih =>
    rw [List.length_append, List.length_singleton]
    rw [tabulate_concat, get?_insert] at held
    split at held
    · obtain rfl := Option.some.inj held
      have below : greatest (v.node.children.filterMap (tabulate Node.depthAbove visits).get?) ≤
          visits.length := by
        refine greatest_le_iff.2 fun m mem => ?_
        obtain ⟨_, _, value⟩ := List.mem_filterMap.1 mem
        exact ih value
      exact Nat.add_comm _ 1 ▸ Nat.add_le_add_left below 1
    · exact Nat.le_succ_of_le (ih held)

/-- A walk takes up no more classes than the graph has. -/
theorem Selection.Grounded.length_le {s : Selection α} {g : EGraph α} {visits : List (Visit α)}
    (h : s.Grounded g visits) : visits.length ≤ g.classes.length := by
  have known : visits.map Visit.eclass ⊆ g.classes := by
    intro c mem
    obtain ⟨v, visited, rfl⟩ := List.mem_map.1 mem
    obtain ⟨_, _, stored, owner⟩ := chosenMember_eq_ok.1 (h.proper v visited)
    exact EGraph.mem_classes.2 ⟨_, _, stored, owner⟩
  have bound := (List.subperm_of_subset h.nodup known).length_le
  rwa [List.length_map] at bound

namespace Plan

/-- The total that a class has when the run by depth is over. -/
def depthTotal? (g : EGraph α) : ClassId → Option α :=
  ((byMeasure depthMeasure).wholeRun g).table.total?

variable [OrderedCost α] {g : EGraph α} {count : Nat → α} {limit : Nat}

theorem nonnegative_depthTotal : Table.Nonnegative ((byMeasure (depthMeasure (α := α))).wholeRun g).table :=
  ((byMeasure depthMeasure).reached_wholeRun g).nonnegative superior_depthMeasure

section Walk
variable {visits : List (Visit α)} {s : Selection α}

omit [OrderedCost α] in
/-- What the walk along a selection computes for a visited class, and that it stays below the limit. -/
theorem exists_depths (few : g.classes.length < limit) (grounded : s.Grounded g visits.reverse) :
    ∀ v ∈ visits.reverse, ∃ depths,
      v.node.children.mapM (tabulate Node.depthAbove visits).get? = some depths ∧
      (tabulate Node.depthAbove visits).get? v.eclass = some (1 + greatest depths) ∧
      1 + greatest depths < limit := by
  intro v mem
  obtain ⟨depths, inner, held⟩ := grounded.tabulated Node.depthAbove v mem
  rw [List.reverse_reverse] at inner held
  have visited := tabulate_depth_le held
  have known := grounded.length_le
  rw [List.length_reverse] at known
  exact ⟨depths, inner, held, Nat.lt_of_le_of_lt (Nat.le_trans visited known) few⟩

/-- Along the selection of the run, the walk computes the totals. -/
theorem depthTotal_of_walk (counts : Counts count limit) (few : g.classes.length < limit)
    (grounded :
      (((byMeasure depthMeasure).wholeRun g).selection g).Grounded g visits.reverse) :
    ∀ v ∈ visits.reverse, ∃ d, (tabulate Node.depthAbove visits).get? v.eclass = some d ∧
      depthTotal? g v.eclass = some (count d) ∧ d < limit := by
  apply grounded.visit_induction (Q := fun c => ∃ d, (tabulate Node.depthAbove visits).get? c = some d ∧
    depthTotal? g c = some (count d) ∧ d < limit)
  intro v mem below
  obtain ⟨depths, inner, held, room⟩ := exists_depths few grounded v mem
  have totals : v.node.children.mapM (depthTotal? g) = some (depths.map count) := by
    refine mapM_map_of_mapM inner fun c child d value => ?_
    obtain ⟨_, value', total, _⟩ := below c child
    rw [total, Option.some.inj (value.symm.trans value')]
  obtain ⟨_, choice, stored, _⟩ := Selection.chosenMember_eq_ok.1 (grounded.proper v mem)
  obtain ⟨_, chosen⟩ := Run.choice?_selection.1 choice
  obtain ⟨entry, there, same⟩ := Option.map_eq_some_iff.1 chosen
  have settled := final_of_choice superior_depthMeasure there (same ▸ stored) totals
  rw [counts.depthMeasure_eq _ room] at settled
  have total := Table.total?_of_get? there
  have value : entry.total = count (1 + greatest depths) :=
    counts.eq_of_not_lt (nonnegative_depthTotal total) (by omega) room settled.1 settled.2
  exact ⟨_, held, total.trans (congrArg some value), room⟩

/-- Along any selection, what the walk computes for a class is not below its total. -/
theorem depthTotal_le_of_walk (counts : Counts count limit) (few : g.classes.length < limit)
    (grounded : s.Grounded g visits.reverse) :
    ∀ v ∈ visits.reverse, ∃ d t, (tabulate Node.depthAbove visits).get? v.eclass = some d ∧ d < limit ∧
      depthTotal? g v.eclass = some t ∧ ¬ count d < t := by
  apply grounded.visit_induction (Q := fun c => ∃ d t, (tabulate Node.depthAbove visits).get? c = some d ∧
    d < limit ∧ depthTotal? g c = some t ∧ ¬ count d < t)
  intro v mem below
  obtain ⟨depths, inner, held, room⟩ := exists_depths few grounded v mem
  obtain ⟨_, _, stored, owner⟩ := Selection.chosenMember_eq_ok.1 (grounded.proper v mem)
  obtain ⟨totals, inner'⟩ := exists_mapM fun c child =>
    let ⟨_, t, _, _, total, _⟩ := below c child
    ⟨t, total⟩
  have counted : v.node.children.mapM (fun c => ((tabulate Node.depthAbove visits).get? c).map count) =
      some (depths.map count) := by
    refine mapM_map_of_mapM inner fun c child d value => ?_
    rw [value]
    rfl
  have pairs : List.Forall₂ (fun a b => ¬ b < a) totals (depths.map count) := by
    refine forall₂_of_mapM inner' counted fun c child t x total value => ?_
    obtain ⟨d, t', value', _, total', notLess⟩ := below c child
    obtain rfl := Option.some.inj (total.symm.trans total')
    rw [value', Option.map_some, Option.some.injEq] at value
    rwa [← value]
  obtain ⟨t, total, notLess⟩ := exists_final_le superior_depthMeasure stored inner'
  have positive : ∀ a ∈ depths.map count, Cost.Nonnegative a := by
    intro a mem
    obtain ⟨d, deep, rfl⟩ := List.mem_map.1 mem
    have := le_greatest deep
    exact counts.nonnegative (by omega)
  have mono := superior_depthMeasure.mono (EGraph.nonnegative_cost stored)
    (nonnegative_depthTotal.below inner') positive pairs
  have whole := superior_depthMeasure.nonnegative (EGraph.nonnegative_cost stored)
    (nonnegative_depthTotal.below inner')
  rw [counts.depthMeasure_eq _ room] at mono
  refine ⟨_, t, held, room, owner ▸ total, ?_⟩
  exact OrderedCost.not_lt_trans (nonnegative_depthTotal total) whole (counts.nonnegative room) notLess mono

end Walk

/-- The walk along the selection of the run computes no greater depth than the walk along another. -/
theorem depth_le_of_walks (counts : Counts count limit) (few : g.classes.length < limit)
    {visits visits' : List (Visit α)} {s : Selection α}
    (grounded : (((byMeasure depthMeasure).wholeRun g).selection g).Grounded g visits.reverse)
    (grounded' : s.Grounded g visits'.reverse) {c : ClassId} (visited : c ∈ visits.map Visit.eclass)
    (visited' : c ∈ visits'.map Visit.eclass) :
    ∃ d d', (tabulate Node.depthAbove visits).get? c = some d ∧
      (tabulate Node.depthAbove visits').get? c = some d' ∧ d ≤ d' := by
  obtain ⟨v, mem, rfl⟩ := List.mem_map.1 visited
  obtain ⟨v', mem', same⟩ := List.mem_map.1 visited'
  obtain ⟨d, held, total, room⟩ := depthTotal_of_walk counts few grounded v (List.mem_reverse.2 mem)
  obtain ⟨d', t, held', room', total', notLess⟩ :=
    depthTotal_le_of_walk counts few grounded' v' (List.mem_reverse.2 mem')
  rw [same] at held' total'
  obtain rfl := Option.some.inj (total.symm.trans total')
  exact ⟨d, d', held, held', Nat.not_lt.1 (mt (counts.lt_iff room' room).2 notLess)⟩

/-- The selection of the run has a depth over covered roots that no selection goes below. -/
theorem exists_least_depth (counts : Counts count limit) (few : g.classes.length < limit)
    {roots : List ClassId}
    (covered : ∀ c ∈ roots, ((byMeasure (depthMeasure (α := α))).wholeRun g).table.Covers c) :
    ∃ least, (((byMeasure depthMeasure).wholeRun g).selection g).depth g roots = .ok least ∧
      ∀ (other : Selection α) d, other.depth g roots = .ok d → least ≤ d := by
  obtain ⟨visits, walk⟩ := exists_postOrder superior_depthMeasure covered
  obtain ⟨grounded, visited⟩ := Selection.grounded_of_postOrder walk
  refine ⟨_, Selection.depth_eq_ok.2 ⟨visits, walk, rfl⟩, ?_⟩
  intro other d ok
  obtain ⟨visits', walk', rfl⟩ := Selection.depth_eq_ok.1 ok
  obtain ⟨grounded', visited'⟩ := Selection.grounded_of_postOrder walk'
  refine greatest_le_iff.2 fun m mem => ?_
  obtain ⟨c, root, value⟩ := List.mem_filterMap.1 mem
  obtain ⟨m', d', held, held', le⟩ := depth_le_of_walks counts few grounded grounded'
    ((visited c).2 ⟨c, root, .refl⟩) ((visited' c).2 ⟨c, root, .refl⟩)
  obtain rfl := Option.some.inj (value.symm.trans held)
  exact Nat.le_trans le (le_greatest (List.mem_filterMap.2 ⟨c, root, held'⟩))

/-- The total of a covered class is its depth. -/
theorem depth_singleton (counts : Counts count limit) (few : g.classes.length < limit) {c : ClassId}
    (covered : ((byMeasure (depthMeasure (α := α))).wholeRun g).table.Covers c) :
    ∃ d, (((byMeasure depthMeasure).wholeRun g).selection g).depth g [c] = .ok d ∧
      depthTotal? g c = some (count d) := by
  obtain ⟨visits, walk⟩ := exists_postOrder superior_depthMeasure (List.forall_mem_singleton.2 covered)
  obtain ⟨grounded, visited⟩ := Selection.grounded_of_postOrder walk
  obtain ⟨v, mem, rfl⟩ := List.mem_map.1 ((visited c).2 ⟨c, List.mem_singleton_self c, .refl⟩)
  obtain ⟨d, held, total, _⟩ := depthTotal_of_walk counts few grounded v (List.mem_reverse.2 mem)
  refine ⟨d, Selection.depth_eq_ok.2 ⟨visits, walk, ?_⟩, total⟩
  rw [List.filterMap_cons, held, List.filterMap_nil, greatest, List.foldl_cons, List.foldl_nil,
    Nat.max_eq_right (Nat.zero_le d)]

end Plan

/-- On a graph of fewer than `2 ^ 53` classes, extraction by depth attains the least depth that any selection
has, and what it has recorded for the choice of a class is the depth of the selection below that class. -/
theorem Settings.astDepth_least_depth (settings : Settings) (astDepth : settings.extractor = .astDepth)
    (g : EGraph Float) (few : g.classes.length < 2 ^ 53) (roots : List ClassId) (s : Selection Float)
    (ok : settings.untimed g roots = .ok s) :
    (∃ least, s.depth g roots = .ok least ∧
      ∀ (other : Selection Float) d, other.depth g roots = .ok d → least ≤ d) ∧
      ∀ c id, s.choice? c = some id → ∃ d, s.depth g [c] = .ok d ∧
        s.candidates.get? id = some (some d.toUInt64.toFloat) := by
  unfold untimed run at ok
  rw [astDepth] at ok
  obtain ⟨rfl, covered⟩ := Plan.selection_of_extract ok
  refine ⟨Plan.exists_least_depth Double.counts few covered, ?_⟩
  intro c id choice
  obtain ⟨_, chosen⟩ := Run.choice?_selection.1 choice
  obtain ⟨entry, held, rfl⟩ := Option.map_eq_some_iff.1 chosen
  obtain ⟨d, depth, total⟩ :=
    Plan.depth_singleton Double.counts few (Table.covers_iff.2 ⟨entry, held⟩)
  have recorded := ((Plan.byMeasure depthMeasure).reached_wholeRun g).recorded_choice
    Plan.careful_byMeasure (Plan.nonnegative_byMeasure superior_depthMeasure) held
  refine ⟨d, depth, ?_⟩
  rw [← Option.some.inj ((Table.total?_of_get? held).symm.trans total)]
  exact (congrArg (fun m => TreeMap.get? m entry.choice) (Run.candidates_selection g _)).trans recorded

section Shallow
set_option maxRecDepth 100000

/-- A graph whose class 0 has a way through class 1 and a shorter one past it, and whose class 2 has a node
above class 0. -/
def shallowGraph : EGraph Float :=
  (Draft.ofNodes [((0 : UInt32), [(1 : UInt32)], (0.0 : Float)), (0, [2, 3], 0), (1, [2], 0), (2, [0], 0),
    (2, [3], 0), (3, [], 9)] [0]).toGraph.toOption.get (by decide +kernel)

def shallowSelection : Selection Float :=
  (Settings.untimed { extractor := .astDepth } shallowGraph [⟨0⟩]).toOption.get (by decide +kernel)

theorem shallowSelection_depth : shallowSelection.depth shallowGraph [⟨0⟩] = .ok 3 ∧
    (∀ (other : Selection Float) d, other.depth shallowGraph [⟨0⟩] = .ok d → 3 ≤ d) ∧
    shallowSelection.candidates.get? ⟨⟨0⟩, 1⟩ = some (some 3.0) := by
  obtain ⟨⟨least, attained, bound⟩, recorded⟩ :=
    Settings.astDepth_least_depth { extractor := .astDepth } rfl shallowGraph (by decide +kernel) [⟨0⟩]
      shallowSelection (ok_get_toOption _)
  have value : shallowSelection.depth shallowGraph [⟨0⟩] = .ok 3 := by decide +kernel
  obtain rfl := Except.ok.inj (attained.symm.trans value)
  have choice : shallowSelection.choice? ⟨0⟩ = some ⟨⟨0⟩, 1⟩ := by decide +kernel
  obtain ⟨d, depth, candidate⟩ := recorded ⟨0⟩ _ choice
  obtain rfl := Except.ok.inj (depth.symm.trans value)
  have three : (3 : Nat).toUInt64.toFloat = 3.0 := by decide +kernel
  exact ⟨value, bound, candidate.trans (congrArg (fun x => some (some x)) three)⟩

end Shallow

end Extraction
