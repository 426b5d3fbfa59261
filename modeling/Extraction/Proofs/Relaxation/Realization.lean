import Extraction.Proofs.Relaxation.Itemized
import Extraction.Proofs.Selection.Mirror

/-! What bills are bills of. Whatever becomes of the table, a bill that was put in it is that of a
realization from the leaves up: classes with a node each, no class twice, each node above classes that are
realized before it. Bills are merged as realizations are joined, where the first node for a class counts. -/
namespace Extraction
open Std Relation

variable {α : Type} [Cost α]

/-- Classes with nodes that realize them from the leaves up, latest first. -/
inductive EGraph.Realization (g : EGraph α) : List (Visit α) → Prop
  | nil : g.Realization []
  | cons {v : Visit α} {visits : List (Visit α)} (rest : g.Realization visits)
      (stored : g.node? v.id = some v.node) (owner : v.node.eclass = v.eclass)
      (below : ∀ d ∈ v.node.children, d ∈ visits.map Visit.eclass)
      (fresh : v.eclass ∉ visits.map Visit.eclass) : g.Realization (v :: visits)

/-- The bill charges for the visited classes, each the cost of its node. -/
def Bill.Charges (bill : Bill α) (visits : List (Visit α)) : Prop :=
  ∀ (d : ClassId) x, bill[d]? = some x ↔ ∃ v ∈ visits, v.eclass = d ∧ v.node.cost = x

/-- The first visits with what the others add to them. -/
def joined (visits others : List (Visit α)) : List (Visit α) :=
  others.filter (fun w => w.eclass ∉ visits.map Visit.eclass) ++ visits

variable {g : EGraph α} {v : Visit α} {visits others : List (Visit α)} {bill other : Bill α}

omit [Cost α] in
theorem mem_joined {w : Visit α} : w ∈ joined visits others ↔
    w ∈ others ∧ w.eclass ∉ visits.map Visit.eclass ∨ w ∈ visits := by
  rw [joined, List.mem_append, List.mem_filter, decide_eq_true_iff]

omit [Cost α] in
theorem mem_classes_joined {d : ClassId} : d ∈ (joined visits others).map Visit.eclass ↔
    d ∈ others.map Visit.eclass ∨ d ∈ visits.map Visit.eclass := by
  by_cases old : d ∈ visits.map Visit.eclass
  · obtain ⟨v, mem, rfl⟩ := List.mem_map.1 old
    exact ⟨fun _ => .inr old, fun _ => List.mem_map_of_mem (mem_joined.2 (.inr mem))⟩
  · constructor
    · intro mem
      obtain ⟨w, among, rfl⟩ := List.mem_map.1 mem
      obtain ⟨new, _⟩ | kept := mem_joined.1 among
      · exact .inl (List.mem_map_of_mem new)
      · exact .inr (List.mem_map_of_mem kept)
    · intro either
      obtain ⟨w, new, rfl⟩ := List.mem_map.1 (either.resolve_right old)
      exact List.mem_map_of_mem (mem_joined.2 (.inl ⟨new, old⟩))

namespace EGraph.Realization

theorem nodup (h : g.Realization visits) : (visits.map Visit.eclass).Nodup := by
  induction h with
  | nil => exact List.nodup_nil
  | cons _ _ _ _ fresh ih => exact List.nodup_cons.2 ⟨fresh, ih⟩

theorem proper (h : g.Realization visits) :
    ∀ v ∈ visits, g.node? v.id = some v.node ∧ v.node.eclass = v.eclass := by
  induction h with
  | nil => exact List.forall_mem_nil _
  | cons _ stored owner _ _ ih => exact List.forall_mem_cons.2 ⟨⟨stored, owner⟩, ih⟩

theorem join (h : g.Realization visits) (h' : g.Realization others) :
    g.Realization (joined visits others) := by
  induction h' with
  | nil => exact h
  | @cons w others _ stored owner below fresh ih =>
    by_cases old : w.eclass ∈ visits.map Visit.eclass
    · have dropped : joined visits (w :: others) = joined visits others := by
        rw [joined, List.filter_cons_of_neg (by simpa using old), joined]
      rwa [dropped]
    · have added : joined visits (w :: others) = w :: joined visits others := by
        rw [joined, List.filter_cons_of_pos (by simpa using old), List.cons_append, joined]
      rw [added]
      refine .cons ih stored owner ?_ ?_
      · exact fun d child => mem_classes_joined.2 (.inl (below d child))
      · rw [mem_classes_joined, not_or]
        exact ⟨fresh, old⟩

end EGraph.Realization

namespace Bill

omit [Cost α] in
theorem charges_empty : Charges (∅ : Bill α) [] := by
  intro d x
  simp

omit [Cost α] in
theorem Charges.mem_iff (h : bill.Charges visits) {d : ClassId} :
    d ∈ bill ↔ d ∈ visits.map Visit.eclass := by
  rw [mem_iff_exists, List.mem_map]
  constructor
  · rintro ⟨x, charge⟩
    obtain ⟨v, mem, same, _⟩ := (h d x).1 charge
    exact ⟨v, mem, same⟩
  · rintro ⟨v, mem, same⟩
    exact ⟨v.node.cost, (h d _).2 ⟨v, mem, same, rfl⟩⟩

omit [Cost α] in
theorem Charges.addMissing (h : bill.Charges visits) (h' : other.Charges others) :
    (bill.addMissing other).Charges (joined visits others) := by
  intro d x
  by_cases listed : d ∈ bill
  · rw [getElem?_addMissing_of_mem listed, h d x]
    constructor
    · rintro ⟨v, mem, owner, cost⟩
      exact ⟨v, mem_joined.2 (.inr mem), owner, cost⟩
    · rintro ⟨v, mem, rfl, cost⟩
      obtain ⟨_, new⟩ | kept := mem_joined.1 mem
      · exact absurd (h.mem_iff.1 listed) new
      · exact ⟨v, kept, rfl, cost⟩
  · rw [getElem?_addMissing_of_notMem listed, h' d x]
    constructor
    · rintro ⟨w, mem, rfl, cost⟩
      exact ⟨w, mem_joined.2 (.inl ⟨mem, fun old => listed (h.mem_iff.2 old)⟩), rfl, cost⟩
    · rintro ⟨w, mem, rfl, cost⟩
      obtain ⟨new, _⟩ | kept := mem_joined.1 mem
      · exact ⟨w, new, rfl, cost⟩
      · exact absurd (h.mem_iff.2 (List.mem_map_of_mem kept)) listed

omit [Cost α] in
theorem Charges.insert (h : bill.Charges visits) (new : v.eclass ∉ bill) :
    Charges (bill.insert v.eclass v.node.cost) (v :: visits) := by
  intro d x
  simp only [TreeMap.getElem?_insert, LawfulEqCmp.compare_eq_iff_eq, List.mem_cons,
    or_and_right, exists_or, exists_eq_left]
  by_cases same : v.eclass = d
  · subst same
    have off : bill[v.eclass]? = none := TreeMap.getElem?_eq_none new
    simp [← h v.eclass x, off]
  · simp [same, h d x]

/-- The bill is that of a realization. -/
def Backed (g : EGraph α) (bill : Bill α) : Prop :=
  ∃ visits, g.Realization visits ∧ bill.Charges visits

theorem Backed.empty : Backed g ∅ := ⟨[], .nil, charges_empty⟩

theorem Backed.addMissing (h : Backed g bill) (h' : Backed g other) :
    Backed g (bill.addMissing other) := by
  obtain ⟨_, realization, charges⟩ := h
  obtain ⟨_, realization', charges'⟩ := h'
  exact ⟨_, realization.join realization', charges.addMissing charges'⟩

/-- A merged bill is that of a realization if the bills are. -/
theorem backed_merge {bills : List (Bill α)} (backed : ∀ bill ∈ bills, Backed g bill) :
    Backed g (merge bills) := by
  cases bills with
  | nil => exact .empty
  | cons first others =>
    have base : Backed g (largest first others) := backed _ (largest_mem first others)
    rw [merge]
    generalize largest first others = bill at base
    generalize first :: others = bills at backed
    induction bills generalizing bill with
    | nil => exact base
    | cons other bills ih =>
      obtain ⟨head, tail⟩ := List.forall_mem_cons.1 backed
      exact ih _ (base.addMissing head) tail

end Bill

/-- The choices of a realization. -/
def Selection.ofVisits (visits : List (Visit α)) : Selection α :=
  visits.foldr (fun v s => s.choose v.eclass v.id) ∅

omit [Cost α] in
theorem Selection.choice?_ofVisits {c : ClassId} {id : NodeId}
    (nodup : (visits.map Visit.eclass).Nodup) : (ofVisits visits).choice? c = some id ↔
      ∃ v ∈ visits, v.eclass = c ∧ v.id = id := by
  induction visits with
  | nil =>
    constructor
    · intro choice
      cases choice
    · rintro ⟨_, mem, _⟩
      cases mem
  | cons v visits ih =>
    obtain ⟨fresh, nodup⟩ := List.nodup_cons.1 nodup
    have chosen : (ofVisits (v :: visits)).choice? c =
        if c = v.eclass then some v.id else (ofVisits visits).choice? c := choice?_choose _ _ _ _
    simp only [chosen, List.mem_cons, or_and_right, exists_or, exists_eq_left]
    by_cases same : v.eclass = c
    · subst same
      rw [if_pos rfl, Option.some.injEq]
      constructor
      · exact fun same => .inl ⟨rfl, same⟩
      · rintro (⟨_, same⟩ | ⟨w, mem, owner, _⟩)
        · exact same
        · exact absurd (owner ▸ List.mem_map_of_mem mem) fresh
    · rw [if_neg (Ne.symm same), ih nodup]
      simp [same]

namespace EGraph.Realization

theorem grounded (h : g.Realization visits) {s : Selection α}
    (chooses : ∀ v ∈ visits, s.choice? v.eclass = some v.id) : s.Grounded g visits := by
  induction h with
  | nil => exact .nil
  | cons _ stored owner below fresh ih =>
    obtain ⟨first, others⟩ := List.forall_mem_cons.1 chooses
    exact .cons (ih others) (Selection.chosenMember_eq_ok.2 ⟨rfl, first, stored, owner⟩) below fresh

theorem grounded_ofVisits (h : g.Realization visits) :
    (Selection.ofVisits visits).Grounded g visits :=
  h.grounded fun v mem => (Selection.choice?_ofVisits h.nodup).2 ⟨v, mem, rfl, rfl⟩

theorem proper_ofVisits (h : g.Realization visits) : (Selection.ofVisits visits).Proper g := by
  intro c id choice
  obtain ⟨v, mem, rfl, rfl⟩ := (Selection.choice?_ofVisits h.nodup).1 choice
  obtain ⟨stored, owner⟩ := h.proper v mem
  exact ⟨v.node, stored, owner⟩

/-- The selection of a realization does not lead out of it. -/
theorem mem_of_below (h : g.Realization (v :: visits)) {c : ClassId}
    (below : (Selection.ofVisits (v :: visits)).Below g [v.eclass] c) :
    c ∈ (v :: visits).map Visit.eclass := by
  obtain ⟨r, root, path⟩ := below
  obtain rfl := List.mem_singleton.1 root
  obtain rfl | further := reflTransGen_iff_eq_or_transGen.1 path
  · exact List.mem_cons_self
  · exact (h.grounded_ofVisits.leads List.mem_cons_self further).1

theorem acyclicBelow_ofVisits (h : g.Realization (v :: visits)) :
    (Selection.ofVisits (v :: visits)).AcyclicBelow g [v.eclass] :=
  fun _ below round => (h.grounded_ofVisits.leads (h.mem_of_below below) round).2 rfl

/-- The survey of the selection of a realization takes up some of its visits. -/
theorem exists_survey (h : g.Realization (v :: visits)) :
    ∃ taken, ((Selection.ofVisits (v :: visits)).survey g [v.eclass]).result = .ok taken ∧
      taken.Subperm (v :: visits) := by
  have drawn : (Selection.ofVisits (v :: visits)).Drawn g (v :: visits) :=
    ⟨fun w mem => (Selection.chosenMember_eq_ok_iff.1 (h.grounded_ofVisits.proper w mem)).1, h.nodup⟩
  have inside : ∀ r ∈ [v.eclass], r ∈ g.classes := by
    obtain ⟨stored, owner⟩ := h.proper v List.mem_cons_self
    exact List.forall_mem_singleton.2 (EGraph.mem_classes.2 ⟨v.id, v.node, stored, owner⟩)
  exact drawn.exists_survey inside fun c below => h.mem_of_below below

/-- From any of its visits on, a realization is one of that class. -/
theorem suffix (h : g.Realization (v :: visits)) {w : Visit α} (mem : w ∈ visits) :
    ∃ part, g.Realization (w :: part) ∧ (w :: part).Sublist visits := by
  induction visits generalizing v with
  | nil => cases mem
  | cons u visits ih =>
    cases h with
    | cons rest _ _ _ _ =>
      obtain rfl | later := List.mem_cons.1 mem
      · exact ⟨visits, rest, .refl _⟩
      · obtain ⟨part, realization, sublist⟩ := ih rest later
        exact ⟨part, realization, sublist.cons u⟩

end EGraph.Realization

section Exact
variable [ExactCost α]

theorem Bill.Charges.total_eq (h : bill.Charges visits)
    (nodup : (visits.map Visit.eclass).Nodup) :
    bill.total = Cost.sum (visits.map fun v => v.node.cost) := by
  refine Bill.total_eq_sum nodup (fun d => h.mem_iff.symm) ?_
  rw [mapM_eq_some_iff, List.forall₂_map_left_iff, List.forall₂_map_right_iff, List.forall₂_same]
  exact fun v mem => (h v.eclass _).2 ⟨v, mem, rfl, rfl⟩

/-- Of a realization there is a selection that goes round nowhere and costs no more than its bill. -/
theorem EGraph.Realization.exists_selection (h : g.Realization (v :: visits))
    (charges : bill.Charges (v :: visits)) : ∃ s : Selection α, s.choice? v.eclass = some v.id ∧
      s.Proper g ∧ s.AcyclicBelow g [v.eclass] ∧
      ∃ cost, s.dagCost g [v.eclass] = .ok cost ∧ ¬ bill.total < cost := by
  obtain ⟨taken, walk, some⟩ := h.exists_survey
  refine ⟨_, (Selection.choice?_ofVisits h.nodup).2 ⟨v, List.mem_cons_self, rfl, rfl⟩,
    h.proper_ofVisits, h.acyclicBelow_ofVisits, _,
    Selection.dagCost_eq_ok.2 ⟨taken, walk, rfl⟩, ?_⟩
  rw [charges.total_eq h.nodup]
  exact ExactCost.not_sum_map_lt_of_subperm _ some

end Exact

namespace Plan
variable {prune : Bool} {passes : Nat} {pace : Pace} {r : Run α (Bill α)}

/-- The bill of every class is that of a realization of the class by its node. -/
def Realized (g : EGraph α) (table : Table α (Bill α)) : Prop :=
  ∀ c entry, TreeMap.get? table c = some entry → ∃ node visits,
    g.Realization (⟨c, entry.choice, node⟩ :: visits) ∧
      entry.detail.Charges (⟨c, entry.choice, node⟩ :: visits)

theorem realization_of_candidate {table : Table α (Bill α)} (realized : Realized g table)
    {id : NodeId} {node : Node α} {entry : Entry α (Bill α)} (stored : g.node? id = some node)
    (h : billEvaluation prune table id node = .candidate entry) : ∃ visits,
      g.Realization (⟨node.eclass, id, node⟩ :: visits) ∧
        entry.detail.Charges (⟨node.eclass, id, node⟩ :: visits) := by
  obtain ⟨leaf, rfl⟩ | ⟨_, children, values, _, _, open_, rfl⟩ := billEvaluation_eq_candidate.1 h
  · have bare : ∀ d ∈ node.children, d ∈ ([] : List (Visit α)).map Visit.eclass :=
      fun d child => absurd child (Node.not_mem_children leaf d)
    exact ⟨[], .cons .nil stored rfl bare List.not_mem_nil,
      Bill.charges_empty.insert (v := ⟨node.eclass, id, node⟩) TreeMap.not_mem_emptyc⟩
  · have backed : ∀ bill ∈ children.map Entry.detail, Bill.Backed g bill := by
      intro bill mem
      obtain ⟨child, among, rfl⟩ := List.mem_map.1 mem
      obtain ⟨c, _, held⟩ := (children_of_distinct values).2 child among
      obtain ⟨_, _, realization, charges⟩ := realized c child held
      exact ⟨_, realization, charges⟩
    obtain ⟨visits, realization, charges⟩ := Bill.backed_merge backed
    have new : node.eclass ∉ Bill.merge (children.map Entry.detail) := by
      rw [← TreeMap.contains_iff_mem, open_]
      exact Bool.false_ne_true
    refine ⟨visits, .cons realization stored rfl ?_ (fun mem => new (charges.mem_iff.2 mem)),
      charges.insert (v := ⟨node.eclass, id, node⟩) new⟩
    intro d child
    obtain ⟨below, among, held⟩ := (children_of_distinct values).1 d child
    obtain ⟨_, _, _, charges'⟩ := realized d below held
    have own : d ∈ below.detail := charges'.mem_iff.2 List.mem_cons_self
    exact charges.mem_iff.1 (Bill.mem_merge (List.mem_map_of_mem among) own)

theorem Reached.realized (reached : (byBills prune passes pace).Reached g r) :
    Realized g r.table := by
  exact reached.forall_entries careful_byBills fun {_ node _} realized stored candidate =>
    ⟨node, realization_of_candidate realized stored candidate⟩

end Plan

end Extraction
