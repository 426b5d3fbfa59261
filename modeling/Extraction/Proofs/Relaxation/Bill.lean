import Extraction.Proofs.Relaxation.Potential
import Extraction.Proofs.Collections

/-! Bills in relaxation. A merged bill lists what any of the bills lists and charges for it what one of
them charges. An evaluation by bills depends on the bills of the children and, where hopeless nodes are
turned away, on the total of the class. -/
namespace Extraction
open Std

variable {α : Type} [Cost α]

omit [Cost α] in
/-- A leaf stands above nothing. -/
theorem Node.not_mem_children {node : Node α} (leaf : node.isLeaf = true) (c : ClassId) :
    c ∉ node.children := by
  rw [Node.isLeaf, List.isEmpty_iff] at leaf
  rw [leaf]
  exact List.not_mem_nil

namespace Bill

omit [Cost α] in
theorem mem_iff_exists {bill : Bill α} {d : ClassId} : d ∈ bill ↔ ∃ x, bill[d]? = some x := by
  rw [TreeMap.mem_iff_isSome_getElem?, Option.isSome_iff_exists]

omit [Cost α] in
theorem getElem?_addMissing {bill other : Bill α} {d : ClassId} {x : α}
    (h : (addMissing bill other)[d]? = some x) : bill[d]? = some x ∨ other[d]? = some x := by
  rw [addMissing, TreeMap.foldl_eq_foldl_toList] at h
  suffices general : ∀ (entries : List (ClassId × α)) (bill : Bill α),
      (entries.foldl (fun bill e => bill.insertIfNew e.1 e.2) bill)[d]? = some x →
        bill[d]? = some x ∨ (d, x) ∈ entries from
    (general _ _ h).imp_right TreeMap.mem_toList_iff_getElem?_eq_some.1
  intro entries
  induction entries with
  | nil => exact fun bill h => .inl h
  | cons e entries ih =>
    intro bill h
    obtain before | later := ih _ h
    · rw [TreeMap.getElem?_insertIfNew] at before
      split at before
      · rename_i new
        rw [LawfulEqCmp.compare_eq_iff_eq] at new
        obtain rfl := Option.some.inj before
        obtain ⟨rfl, _⟩ := new
        exact .inr List.mem_cons_self
      · exact .inl before
    · exact .inr (List.mem_cons_of_mem e later)

omit [Cost α] in
theorem mem_addMissing {bill other : Bill α} {d : ClassId} :
    d ∈ addMissing bill other ↔ d ∈ bill ∨ d ∈ other := by
  rw [addMissing, TreeMap.foldl_eq_foldl_toList, ← TreeMap.mem_keys (t := other),
    ← TreeMap.map_fst_toList_eq_keys]
  generalize other.toList = entries
  induction entries generalizing bill with
  | nil => simp
  | cons e entries ih =>
    rw [List.foldl_cons, ih, TreeMap.mem_insertIfNew, LawfulEqCmp.compare_eq_iff_eq, List.map_cons,
      List.mem_cons, eq_comm, or_assoc, or_left_comm]

omit [Cost α] in
theorem largest_mem (first : Bill α) (others : List (Bill α)) :
    largest first others ∈ first :: others := by
  unfold largest
  induction others generalizing first with
  | nil => exact List.mem_cons_self
  | cons bill others ih =>
    rw [List.foldl_cons]
    obtain found | later := List.mem_cons.1 (ih (if first.size ≤ bill.size then bill else first))
    · rw [found]
      split
      · exact List.mem_cons_of_mem _ List.mem_cons_self
      · exact List.mem_cons_self
    · exact List.mem_cons_of_mem _ (List.mem_cons_of_mem _ later)

omit [Cost α] in
/-- What a merged bill charges is charged by one of the bills. -/
theorem exists_of_merge {bills : List (Bill α)} {d : ClassId} {x : α}
    (h : (merge bills)[d]? = some x) : ∃ bill ∈ bills, bill[d]? = some x := by
  cases bills with
  | nil => cases h
  | cons first others =>
    suffices general : ∀ (added : List (Bill α)) (bill : Bill α),
        (added.foldl addMissing bill)[d]? = some x →
          bill[d]? = some x ∨ ∃ bill ∈ added, bill[d]? = some x by
      obtain large | found := general _ _ h
      · exact ⟨_, largest_mem first others, large⟩
      · exact found
    intro added
    induction added with
    | nil => exact fun bill h => .inl h
    | cons other added ih =>
      intro bill h
      obtain before | ⟨later, mem, charged⟩ := ih _ h
      · obtain old | new := getElem?_addMissing before
        · exact .inl old
        · exact .inr ⟨other, List.mem_cons_self, new⟩
      · exact .inr ⟨later, List.mem_cons_of_mem _ mem, charged⟩

omit [Cost α] in
/-- A merged bill lists what any of the bills lists. -/
theorem mem_merge {bills : List (Bill α)} {bill : Bill α} (among : bill ∈ bills) {d : ClassId}
    (listed : d ∈ bill) : d ∈ merge bills := by
  have general : ∀ (added : List (Bill α)) (start : Bill α), d ∈ start ∨ bill ∈ added →
      d ∈ added.foldl addMissing start := by
    intro added
    induction added with
    | nil => simp
    | cons other added ih =>
      intro start either
      apply ih
      rw [mem_addMissing]
      rcases either with old | new
      · exact .inl (.inl old)
      · rcases List.mem_cons.1 new with rfl | later
        · exact .inl (.inr listed)
        · exact .inr later
  cases bills with
  | nil => cases among
  | cons first others => exact general _ _ (.inr among)

/-- Bills that charge the same come to the same. -/
theorem total_congr {bill other : Bill α} (same : ∀ d : ClassId, bill[d]? = other[d]?) :
    bill.total = other.total := by
  rw [total, total, (TreeMap.Equiv.of_forall_constGet?_eq same).values_eq]

end Bill

/-- What an evaluation by bills takes for a candidate. -/
theorem billEvaluation_eq_candidate {prune : Bool} {table : Table α (Bill α)} {id : NodeId}
    {node : Node α} {entry : Entry α (Bill α)} :
    billEvaluation prune table id node = .candidate entry ↔
      node.isLeaf = true ∧
          ⟨id, node.cost, TreeMap.empty.insert node.eclass node.cost⟩ = entry ∨
        node.isLeaf = false ∧ ∃ children, node.distinctChildren.mapM table.get? = some children ∧
          node.eclass ∉ node.children ∧ (prune && hopeless table node children) = false ∧
          (Bill.merge (children.map Entry.detail)).contains node.eclass = false ∧
          billed id node (Bill.merge (children.map Entry.detail)) = entry := by
  unfold billEvaluation
  cases leaf : node.isLeaf with
  | true => simp
  | false =>
    rw [if_neg Bool.false_ne_true]
    cases values : node.distinctChildren.mapM table.get? with
    | none => simp
    | some children =>
      simp only [true_and, false_and, false_or, Option.some.injEq, exists_eq_left',
        Bool.false_eq_true, List.contains_iff_mem]
      generalize (prune && hopeless table node children) = pruned
      generalize Bill.merge (children.map Entry.detail) = below
      by_cases self : node.eclass ∈ node.children
      · simp [self]
      · cases pruned with
        | true => simp
        | false =>
          cases cycle : TreeMap.contains below node.eclass <;>
            simp [self]

namespace Plan

/-- The extraction by bills. -/
def byBills (prune : Bool) (passes : Nat) (pace : Pace) : Plan α (Bill α) :=
  ⟨billEvaluation prune, passes, pace⟩

variable {prune : Bool} {passes : Nat} {pace : Pace} {g : EGraph α} {r : Run α (Bill α)}

omit [Cost α] in
theorem children_of_distinct {table : Table α (Bill α)} {node : Node α}
    {children : List (Entry α (Bill α))}
    (values : node.distinctChildren.mapM table.get? = some children) :
    (∀ c ∈ node.children, ∃ child ∈ children, TreeMap.get? table c = some child) ∧
      ∀ child ∈ children, ∃ c ∈ node.children, TreeMap.get? table c = some child := by
  constructor
  · intro c mem
    exact mem_mapM values (mem_distinctClasses.2 mem)
  · intro child mem
    obtain ⟨c, distinct, held⟩ := exists_of_mem_mapM values mem
    exact ⟨c, mem_distinctClasses.1 distinct, held⟩

theorem careful_byBills : (byBills (α := α) prune passes pace).Careful where
  chooses := by
    intro table id node entry h
    obtain ⟨_, rfl⟩ | ⟨_, children, _, _, _, _, rfl⟩ := billEvaluation_eq_candidate.1 h <;> rfl
  ready := by
    intro table id node entry h c child
    obtain ⟨leaf, _⟩ | ⟨_, children, values, _⟩ := billEvaluation_eq_candidate.1 h
    · exact absurd child (Node.not_mem_children leaf c)
    · obtain ⟨entry, _, held⟩ := (children_of_distinct values).1 c child
      exact Table.covers_iff.2 ⟨entry, held⟩
  steady := by
    intro table table' id node entry same lowers h
    refine billEvaluation_eq_candidate.2 ((billEvaluation_eq_candidate.1 h).imp_right ?_)
    rintro ⟨inner, children, values, self, hopeful, open_, drawn⟩
    have values' : node.distinctChildren.mapM table.get? = some children := by
      rw [← values]
      exact mapM_congr fun c mem => (same c (mem_distinctClasses.1 mem)).symm
    refine ⟨inner, children, values', self, ?_, open_, drawn⟩
    cases prune with
    | false => rfl
    | true =>
      rw [Bool.true_and] at hopeful ⊢
      unfold hopeless at hopeful ⊢
      split
      · rw [Bool.not_eq_false'] at hopeful ⊢
        exact lowers _ hopeful
      · rfl

/-- What is gathered from the bills of the children: all that they list, each at what one of them charges. -/
structure Gathers (table : Table α (Bill α)) (node : Node α) (below : Bill α) : Prop where
  lists : ∀ c ∈ node.children, ∃ child, TreeMap.get? table c = some child ∧
    ∀ d ∈ child.detail, d ∈ below
  charges : ∀ (d : ClassId) x, below[d]? = some x → ∃ c ∈ node.children,
    ∃ child : Entry α (Bill α), TreeMap.get? table c = some child ∧ child.detail[d]? = some x

section Candidates
variable {table : Table α (Bill α)} {id : NodeId} {node : Node α} {entry below : Entry α (Bill α)}
  {c d : ClassId}

/-- The bill of a candidate is what is gathered below, where the class is not listed, and the node itself. -/
theorem exists_gathers (h : billEvaluation prune table id node = .candidate entry) :
    ∃ below, Gathers table node below ∧ node.eclass ∉ below ∧
      entry.detail = below.insert node.eclass node.cost := by
  obtain ⟨leaf, rfl⟩ | ⟨_, children, values, _, _, open_, rfl⟩ := billEvaluation_eq_candidate.1 h
  · refine ⟨∅, ⟨fun c child => absurd child (Node.not_mem_children leaf c), ?_⟩,
      TreeMap.not_mem_emptyc, rfl⟩
    intro d x charge
    cases charge
  · refine ⟨Bill.merge (children.map Entry.detail), ⟨?_, ?_⟩, ?_, rfl⟩
    · intro c child
      obtain ⟨below, among, held⟩ := (children_of_distinct values).1 c child
      exact ⟨below, held, fun d listed => Bill.mem_merge (List.mem_map_of_mem among) listed⟩
    · intro d x charge
      obtain ⟨bill, mem, charge⟩ := Bill.exists_of_merge charge
      obtain ⟨below, among, rfl⟩ := List.mem_map.1 mem
      obtain ⟨c, child, held⟩ := (children_of_distinct values).2 below among
      exact ⟨c, child, below, held, charge⟩
    · rw [← TreeMap.contains_iff_mem, open_]
      exact Bool.false_ne_true

theorem charge_self (h : billEvaluation prune table id node = .candidate entry) :
    entry.detail[node.eclass]? = some node.cost := by
  obtain ⟨_, _, _, drawn⟩ := exists_gathers h
  rw [drawn]
  exact TreeMap.getElem?_insert_self

/-- What the bill of a child lists, a candidate lists. -/
theorem lists_below (h : billEvaluation prune table id node = .candidate entry)
    (child : c ∈ node.children) (held : TreeMap.get? table c = some below)
    (listed : d ∈ below.detail) : d ∈ entry.detail := by
  obtain ⟨_, gathers, _, drawn⟩ := exists_gathers h
  obtain ⟨below', held', all⟩ := gathers.lists c child
  obtain rfl := Option.some.inj (held.symm.trans held')
  rw [drawn]
  exact TreeMap.mem_insert.2 (.inr (all d listed))

/-- No bill of a child lists the class of a candidate. -/
theorem not_listed_below (h : billEvaluation prune table id node = .candidate entry)
    (child : c ∈ node.children) (held : TreeMap.get? table c = some below) :
    node.eclass ∉ below.detail := by
  obtain ⟨_, gathers, off, _⟩ := exists_gathers h
  obtain ⟨below', held', all⟩ := gathers.lists c child
  obtain rfl := Option.some.inj (held.symm.trans held')
  exact fun listed => off (all _ listed)

/-- What a candidate charges for other classes, the bill of a child charges. -/
theorem charge_below (h : billEvaluation prune table id node = .candidate entry)
    (other : d ≠ node.eclass) {x : α} (charge : entry.detail[d]? = some x) :
    ∃ c ∈ node.children, ∃ below : Entry α (Bill α),
      TreeMap.get? table c = some below ∧ below.detail[d]? = some x := by
  obtain ⟨_, gathers, _, drawn⟩ := exists_gathers h
  simp only [drawn, TreeMap.getElem?_insert, LawfulEqCmp.compare_eq_iff_eq,
    if_neg (Ne.symm other)] at charge
  exact gathers.charges d x charge

/-- A candidate does not stand above its own class. -/
theorem apart_of_candidate (h : billEvaluation prune table id node = .candidate entry) :
    node.eclass ∉ node.children := by
  obtain ⟨leaf, _⟩ | ⟨_, _, _, apart, _⟩ := billEvaluation_eq_candidate.1 h
  · exact Node.not_mem_children leaf _
  · exact apart

end Candidates

end Plan

end Extraction
