import Extraction.Proofs.Extract.Outcome
import Extraction.Proofs.Relaxation.Realization
import Extraction.Proofs.Relaxation.Shortcut
import Extraction.Proofs.Selection.Unrivalled

/-! Runs by bills where a selection has no rival. A realization that costs no more than the selection visits all
that is below its class by the choices of the selection, and what it visits besides costs nothing. So once the
classes below a class have come down to their costs in the selection, their bills do not list the class, and
its node comes to no more than its cost in the selection. In whatever order nodes are looked at, a run that is
over has come down to the selection. -/
namespace Extraction
open Std Relation

variable {α : Type} [Cost α] [ExactCost α] {g : EGraph α} {s : Selection α}

/-- The visits take in all classes below the class in the selection, by its choices. What they visit besides
adds nothing to the cost of the class. -/
structure Selection.Shapes (s : Selection α) (g : EGraph α) (c : ClassId) (least : α)
    (visits : List (Visit α)) : Prop where
  complete : ∀ d, s.Below g [c] d → d ∈ visits.map Visit.eclass
  chosen : ∀ v ∈ visits, s.Below g [c] v.eclass → s.chosen g v.eclass = .ok v
  idle : ∀ v ∈ visits, ¬ s.Below g [c] v.eclass → ¬ least < least + v.node.cost

/-- A realization is shaped by an unrivalled selection if it costs no more. -/
theorem EGraph.Realization.shapes {v : Visit α} {visits : List (Visit α)}
    (h : g.Realization (v :: visits)) (unrivalled : s.Unrivalled g v.eclass) {least : α}
    (spent : s.dagCost g [v.eclass] = .ok least)
    (cheap : ¬ least < Cost.sum ((v :: visits).map fun w => w.node.cost)) :
    s.Shapes g v.eclass least (v :: visits) := by
  obtain ⟨least', spent', rivals⟩ := unrivalled
  obtain rfl := Except.ok.inj (spent.symm.trans spent')
  obtain ⟨taken, walk, some⟩ := h.exists_survey
  obtain ⟨drawn, visited⟩ := Selection.drawn_of_survey walk
  have cost := Selection.dagCost_eq_ok.2 ⟨taken, walk, rfl⟩
  have within {part : List (Visit α)} (some : part.Subperm (v :: visits)) :
      ¬ least < Cost.sum (part.map fun w => w.node.cost) :=
    ExactCost.not_lt_chain (ExactCost.not_sum_map_lt_of_subperm _ some) cheap
  have alike := (rivals _ _ h.proper_ofVisits h.acyclicBelow_ofVisits cost).resolve_left (within some)
  have below {d : ClassId} := Selection.below_congr alike (c := d)
  rw [Selection.dagCost_congr alike] at cost
  obtain rfl := Except.ok.inj (spent.symm.trans cost)
  constructor
  · exact fun d inner => h.mem_of_below (below.2 inner)
  · intro w mem inner
    rw [← Selection.chosen_congr (alike _ (below.2 inner))]
    exact (Selection.chosenMember_eq_ok_iff.1 (h.grounded_ofVisits.proper w mem)).1
  · intro w mem outer
    have new : w.eclass ∉ taken.map Visit.eclass := fun old => outer (below.1 ((visited _).1 old))
    have more : (w :: taken).Subperm (v :: visits) := by
      apply List.subperm_of_subset
      · exact List.Nodup.of_map Visit.eclass (List.nodup_cons.2 ⟨new, drawn.nodup⟩)
      · exact List.cons_subset.2 ⟨mem, some.subset⟩
    have bounded := within more
    rwa [List.map_cons, ExactCost.sum_cons, ExactCost.add_comm] at bounded

namespace Selection

/-- What is below a class has a part in its cost. -/
theorem exists_rest {c d : ClassId} (below : s.Below g [c] d) {whole part : α}
    (spent : s.dagCost g [c] = .ok whole) (spent' : s.dagCost g [d] = .ok part) :
    ∃ rest, whole = part + rest := by
  obtain ⟨visits, walk, rfl⟩ := dagCost_eq_ok.1 spent
  obtain ⟨visits', walk', rfl⟩ := dagCost_eq_ok.1 spent'
  obtain ⟨drawn, visited⟩ := drawn_of_survey walk
  obtain ⟨drawn', visited'⟩ := drawn_of_survey walk'
  have among : visits' ⊆ visits := by
    intro v mem
    have inner := below.trans ((visited' _).1 (List.mem_map_of_mem mem))
    exact drawn.mem_of_chosen ((visited _).2 inner) (drawn'.chosen v mem)
  obtain ⟨_, same, sublist⟩ := List.subperm_of_subset (List.Nodup.of_map _ drawn'.nodup) among
  obtain ⟨others, all⟩ := sublist.exists_perm_append
  refine ⟨Cost.sum (others.map fun v => v.node.cost), ?_⟩
  rw [← ExactCost.sum_append, ← List.map_append]
  exact ExactCost.sum_perm ((all.trans (same.append_right _)).map _)

/-- The table has the class for no more than it costs in the selection. -/
def Matched (s : Selection α) (g : EGraph α) (table : Table α (Bill α)) (c : ClassId) : Prop :=
  ∃ entry least, TreeMap.get? table c = some entry ∧ s.dagCost g [c] = .ok least ∧
    ¬ least < entry.total

end Selection

namespace Plan
variable {prune : Bool} {passes : Nat} {pace : Pace} {r : Run α (Bill α)}

theorem Reached.exists_shapes (reached : (byBills prune passes pace).Reached g r) {c : ClassId}
    {entry : Entry α (Bill α)} {least : α} (held : TreeMap.get? r.table c = some entry)
    (unrivalled : s.Unrivalled g c) (spent : s.dagCost g [c] = .ok least)
    (cheap : ¬ least < entry.total) : ∃ node visits,
      g.Realization (⟨c, entry.choice, node⟩ :: visits) ∧
        entry.detail.Charges (⟨c, entry.choice, node⟩ :: visits) ∧
        ¬ least < Cost.sum ((⟨c, entry.choice, node⟩ :: visits).map fun w => w.node.cost) ∧
        s.Shapes g c least (⟨c, entry.choice, node⟩ :: visits) := by
  obtain ⟨node, visits, realization, charges⟩ := reached.realized c entry held
  rw [reached.totalled c entry held, charges.total_eq realization.nodup] at cheap
  exact ⟨node, visits, realization, charges, cheap, realization.shapes unrivalled spent cheap⟩

omit [ExactCost α] in
/-- A node above covered classes is a candidate unless their bills list its class. -/
theorem exists_candidate {table : Table α (Bill α)} {id : NodeId} {node : Node α}
    (apart : node.eclass ∉ node.children)
    (below : ∀ d ∈ node.children, ∃ entry : Entry α (Bill α), TreeMap.get? table d = some entry ∧
      node.eclass ∉ entry.detail) : ∃ entry, billEvaluation false table id node = .candidate entry := by
  have covered : ∀ d ∈ node.children, table.Covers d := by
    intro d child
    obtain ⟨entry, held, _⟩ := below d child
    exact Table.covers_iff.2 ⟨entry, held⟩
  refine (billEvaluation_of_covered false id covered).2 ?_
  rintro (self | ⟨child, held, listed⟩ | ⟨shortcut, _⟩)
  · exact apart self
  · obtain ⟨entry, held', unlisted⟩ := below _ child
    obtain rfl := Option.some.inj (held.symm.trans held')
    exact unlisted listed
  · cases shortcut

/-- When a run is over, no candidate improves its class, not even one that the shortcut turns away. -/
theorem Reached.not_improves_of_over (reached : (byBills prune passes pace).Reached g r)
    (ended : r.Over passes) (begins : 0 < passes) {id : NodeId} {node : Node α}
    {entry : Entry α (Bill α)} (stored : g.node? id = some node)
    (candidate : billEvaluation false r.table id node = .candidate entry) :
    Cost.improves entry.total (r.table.total? node.eclass) = false := by
  have spent := reached.spent_of_over careful_byBills ended begins id entry
  rw [EGraph.owner_of_node? stored, evaluateIn_eq_candidate] at spent
  cases prune with
  | false => exact spent ⟨node, stored, candidate⟩
  | true =>
    obtain same | idle := candidate_or_not_improves reached.totalled candidate
    · exact spent ⟨node, stored, same⟩
    · exact idle

section Step
variable {v : Visit α} {least : α} (reached : (byBills prune passes pace).Reached g r)
  (member : s.chosenMember g v.eclass = .ok v) (acyclic : s.AcyclicBelow g [v.eclass])
  (unrivalled : ∀ d, s.Below g [v.eclass] d → s.Unrivalled g d)
  (matched : ∀ d ∈ v.node.children, s.Matched g r.table d)
include reached member unrivalled matched

/-- Above matched classes, what the bill of a candidate charges is charged in the selection or adds nothing. -/
theorem Reached.charge_or_idle (spent : s.dagCost g [v.eclass] = .ok least)
    {entry : Entry α (Bill α)} (candidate : billEvaluation false r.table v.id v.node = .candidate entry)
    {d : ClassId} {x : α} (charge : entry.detail[d]? = some x) :
    (∃ w : Visit α, s.Below g [v.eclass] w.eclass ∧ s.chosen g w.eclass = .ok w ∧
      (w.eclass, w.node.cost) = (d, x)) ∨ ¬ least < least + x := by
  obtain ⟨chosen, owner⟩ := Selection.chosenMember_eq_ok_iff.1 member
  have here := Selection.below_self (s := s) (g := g) v.eclass
  by_cases same : d = v.node.eclass
  · subst same
    rw [charge_self candidate] at charge
    obtain rfl := Option.some.inj charge
    exact .inl ⟨v, here, chosen, by rw [owner]⟩
  · obtain ⟨e, child, below, held, charge'⟩ := charge_below candidate same charge
    have inner := here.uses ((Selection.uses_iff_of_chosenMember member).2 child)
    obtain ⟨below', part, held', spent', cheap⟩ := matched e child
    obtain rfl := Option.some.inj (held.symm.trans held')
    obtain ⟨_, _, _, charges, _, shapes⟩ :=
      reached.exists_shapes held (unrivalled e inner) spent' cheap
    obtain ⟨w, visit, rfl, rfl⟩ := (charges d x).1 charge'
    by_cases further : s.Below g [e] w.eclass
    · exact .inl ⟨w, inner.trans further, shapes.chosen w visit further, rfl⟩
    · obtain ⟨rest, rfl⟩ := Selection.exists_rest inner spent spent'
      exact .inr (ExactCost.not_lt_add_of_part (shapes.idle w visit further))

/-- Above matched classes, a candidate costs no more than the class does in the selection. -/
theorem Reached.not_lt_of_matched (spent : s.dagCost g [v.eclass] = .ok least)
    {entry : Entry α (Bill α)} (candidate : billEvaluation false r.table v.id v.node = .candidate entry) :
    ¬ least < entry.total := by
  obtain ⟨_, _, stored, _⟩ := Selection.chosenMember_eq_ok.1 member
  obtain ⟨taken, walk, rfl⟩ := Selection.dagCost_eq_ok.1 spent
  obtain ⟨drawn, visited⟩ := Selection.drawn_of_survey walk
  have costs : taken.map (fun w => w.node.cost) =
      (taken.map fun w => (w.eclass, w.node.cost)).map Prod.snd := by
    rw [List.map_map]
    rfl
  rw [total_of_candidate stored candidate, Bill.total, Bill.values_eq, costs]
  rw [costs] at spent
  apply ExactCost.not_sum_lt_of_idle
  · apply List.Nodup.of_map Prod.fst
    rw [TreeMap.map_fst_toList_eq_keys]
    exact TreeMap.nodup_keys
  · rintro ⟨d, x⟩ mem
    have charge := TreeMap.mem_toList_iff_getElem?_eq_some.1 mem
    refine (reached.charge_or_idle member unrivalled matched spent candidate charge).imp_left ?_
    rintro ⟨w, below, chosen, same⟩
    exact List.mem_map.2 ⟨w, drawn.mem_of_chosen ((visited _).2 below) chosen, same⟩

include acyclic

/-- The bill of a matched class does not list the class of a node above it: else there would be a realization
as cheap inside, which would list the matched class again. -/
theorem Reached.not_listed_of_matched (spent : s.dagCost g [v.eclass] = .ok least) {d : ClassId}
    (child : d ∈ v.node.children) {entry : Entry α (Bill α)}
    (held : TreeMap.get? r.table d = some entry) : v.eclass ∉ entry.detail := by
  have use : s.Uses g v.eclass d := (Selection.uses_iff_of_chosenMember member).2 child
  have here := Selection.below_self (s := s) (g := g) v.eclass
  have apart : d ≠ v.eclass := fun same => acyclic _ here (.single (same ▸ use))
  obtain ⟨entry', part, held', spent', cheap⟩ := matched d child
  obtain rfl := Option.some.inj (held.symm.trans held')
  obtain ⟨node, visits, realization, charges, cheap, _⟩ :=
    reached.exists_shapes held (unrivalled d (here.uses use)) spent' cheap
  intro listed
  obtain ⟨w, mem, owner⟩ := List.mem_map.1 (charges.mem_iff.1 listed)
  obtain rfl | inside := List.mem_cons.1 mem
  · exact apart owner
  obtain ⟨inner, realization', sublist⟩ := realization.suffix inside
  -- The part from the class on costs no more than the whole, so that it is shaped by the selection.
  obtain ⟨rest, rfl⟩ := Selection.exists_rest (here.uses use) spent spent'
  have cheap' : ¬ part + rest < Cost.sum ((w :: inner).map fun w => w.node.cost) := by
    have less := ExactCost.not_sum_map_lt_of_subperm (fun w => w.node.cost)
      (sublist.cons ⟨d, entry.choice, node⟩).subperm
    refine ExactCost.not_lt_chain less (ExactCost.not_lt_chain cheap ?_)
    exact OrderedCost.add_not_lt_left (ExactCost.nonnegative _) (ExactCost.nonnegative _)
  rw [← owner] at spent use here unrivalled
  have again := (realization'.shapes (unrivalled _ here) spent cheap').complete d (here.uses use)
  exact (List.nodup_cons.1 realization.nodup).1 ((sublist.map _).subset again)

/-- In a run that is over, a class is matched if those are that its node in the selection stands above. -/
theorem Reached.matched_of_children (ended : r.Over passes) (begins : 0 < passes) :
    s.Matched g r.table v.eclass := by
  obtain ⟨_, choice, stored, owner⟩ := Selection.chosenMember_eq_ok.1 member
  have here := Selection.below_self (s := s) (g := g) v.eclass
  obtain ⟨least, spent, _⟩ := unrivalled _ here
  have apart : v.node.eclass ∉ v.node.children := by
    intro child
    rw [owner] at child
    exact acyclic _ here (.single ((Selection.uses_iff_of_chosenMember member).2 child))
  obtain ⟨entry, candidate⟩ : ∃ entry, billEvaluation false r.table v.id v.node = .candidate entry := by
    apply exists_candidate apart
    intro d child
    obtain ⟨entry, _, held, _⟩ := matched d child
    rw [owner]
    exact ⟨entry, held, reached.not_listed_of_matched member acyclic unrivalled matched spent child held⟩
  have cheap := reached.not_lt_of_matched member unrivalled matched spent candidate
  have settled := reached.not_improves_of_over ended begins stored candidate
  rw [owner] at settled
  obtain ⟨total, held, notLess⟩ := Cost.not_improves_iff.1 settled
  obtain ⟨entry', held', rfl⟩ := Table.total?_eq_some_iff.1 held
  exact ⟨entry', least, held', spent, ExactCost.not_lt_chain notLess cheap⟩

end Step

/-- A run that is over has all that is below the roots for no more than it costs in a selection that is unrivalled
there. -/
theorem Reached.matched (reached : (byBills prune passes pace).Reached g r) (ended : r.Over passes)
    (begins : 0 < passes) {roots : List ClassId} (proper : s.Proper g)
    (acyclic : s.AcyclicBelow g roots) (unrivalled : ∀ c, s.Below g roots c → s.Unrivalled g c)
    {c : ClassId} (below : s.Below g roots c) : s.Matched g r.table c := by
  obtain ⟨visits, walk⟩ := (s.postOrder_ok_iff g roots).2 fun c below => by
    obtain ⟨_, spent, _⟩ := unrivalled c below
    obtain ⟨v, chosen⟩ := Selection.exists_chosen_of_dagCost spent
    obtain ⟨rfl, choice, _⟩ := Selection.chosen_eq_ok.1 chosen
    exact ⟨proper.exists_chosenMember (by rw [choice]; rfl), acyclic _ below⟩
  obtain ⟨grounded, visited⟩ := Selection.grounded_of_postOrder walk
  have all := grounded.visit_induction (Q := s.Matched g r.table) ?_
  · obtain ⟨v, mem, rfl⟩ := List.mem_map.1 ((visited c).2 below)
    exact all v (List.mem_reverse.2 mem)
  · intro v mem matched
    have here := (visited v.eclass).1 (List.mem_map_of_mem (List.mem_reverse.1 mem))
    exact reached.matched_of_children (grounded.proper v mem) (fun d inner => acyclic d (here.trans inner))
      (fun d inner => unrivalled d (here.trans inner)) matched ended begins

/-- A matched class has chosen what an unrivalled selection chooses. -/
theorem Reached.choice?_of_matched (reached : (byBills prune passes pace).Reached g r) {c : ClassId}
    (unrivalled : s.Unrivalled g c) (matched : s.Matched g r.table c) :
    (r.selection g).choice? c = s.choice? c := by
  obtain ⟨entry, least, held, spent, cheap⟩ := matched
  obtain ⟨node, visits, _, _, _, shapes⟩ := reached.exists_shapes held unrivalled spent cheap
  have chosen := shapes.chosen _ List.mem_cons_self (Selection.below_self c)
  obtain ⟨_, choice, _⟩ := Selection.chosen_eq_ok.1 chosen
  rw [(reached.founded careful_byBills).choice?_eq held, choice]

end Plan

end Extraction
