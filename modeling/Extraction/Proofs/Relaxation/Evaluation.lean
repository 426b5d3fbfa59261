import Extraction.Proofs.Relaxation.Bill
import Mathlib.Data.List.Nodup

/-! What comes of one evaluation by bills. It is blocked by a child without an entry; where all children have
one, a node is refused for one of three reasons or else realizes its class. In which order the children stand
and how often each of them does make no difference. -/
namespace Extraction
open Std

variable {α : Type} [Cost α]

theorem distinctClasses_eq_singleton {classes : List ClassId} {d : ClassId} :
    distinctClasses classes = [d] ↔ ∀ c, c ∈ classes ↔ c = d := by
  constructor
  · intro alone c
    rw [← mem_distinctClasses, alone, List.mem_singleton]
  · intro alone
    refine List.perm_singleton.1 ((List.perm_ext_iff_of_nodup (nodup_distinctClasses classes)
      (List.nodup_singleton d)).2 fun c => ?_)
    rw [mem_distinctClasses, alone, List.mem_singleton]

namespace Bill

omit [Cost α] in
/-- A merged bill lists what the bills list and nothing else. -/
theorem mem_merge_iff {bills : List (Bill α)} {d : ClassId} :
    d ∈ merge bills ↔ ∃ bill ∈ bills, d ∈ bill := by
  constructor
  · intro listed
    obtain ⟨x, charge⟩ := mem_iff_exists.1 listed
    obtain ⟨bill, among, charge⟩ := exists_of_merge charge
    exact ⟨bill, among, mem_iff_exists.2 ⟨x, charge⟩⟩
  · rintro ⟨bill, among, listed⟩
    exact mem_merge among listed

end Bill

namespace Plan

/-- Why a node is turned away whose children all have an entry: it stands above itself, or a bill of a child
leads back to it, or it is above a single child and its class is no worse off already. -/
inductive Refuses (prune : Bool) (table : Table α (Bill α)) (node : Node α) : Prop
  | loop (self : node.eclass ∈ node.children)
  | cycle {c : ClassId} {below : Entry α (Bill α)} (child : c ∈ node.children)
      (held : TreeMap.get? table c = some below) (listed : node.eclass ∈ below.detail)
  | hopeless {d : ClassId} {below : Entry α (Bill α)} {best : α} (shortcut : prune = true)
      (alone : ∀ c, c ∈ node.children ↔ c = d) (held : TreeMap.get? table d = some below)
      (own : table.total? node.eclass = some best) (worse : ¬ node.cost + below.total < best)

variable {prune : Bool} {table : Table α (Bill α)} {id : NodeId} {node other : Node α}
  {children : List (Entry α (Bill α))}

omit [Cost α] in
theorem exists_below (covered : ∀ c ∈ node.children, table.Covers c) :
    ∃ children, node.distinctChildren.mapM table.get? = some children :=
  exists_mapM fun c mem => Table.covers_iff.1 (covered c (mem_distinctClasses.1 mem))

omit [Cost α] in
/-- The entries of the children are not all found exactly if a child has none. -/
theorem mapM_distinct_eq_none :
    node.distinctChildren.mapM table.get? = none ↔ ∃ c ∈ node.children, ¬ table.Covers c := by
  cases values : node.distinctChildren.mapM table.get? with
  | none =>
    simp only [true_iff]
    by_contra all
    push Not at all
    obtain ⟨children, values'⟩ := exists_below all
    cases values.symm.trans values'
  | some children =>
    simp only [reduceCtorEq, false_iff]
    rintro ⟨c, child, bare⟩
    obtain ⟨entry, _, held⟩ := (children_of_distinct values).1 c child
    exact bare (Table.covers_iff.2 ⟨entry, held⟩)

/-- A node above children that all have an entry is turned away or drawn up. -/
theorem billEvaluation_of_children (inner : node.isLeaf = false)
    (values : node.distinctChildren.mapM table.get? = some children) :
    billEvaluation prune table id node =
      if node.eclass ∈ node.children ∨ (prune && hopeless table node children) = true ∨
          node.eclass ∈ Bill.merge (children.map Entry.detail) then .rejected
      else .candidate (billed id node (Bill.merge (children.map Entry.detail))) := by
  unfold billEvaluation
  rw [if_neg (by rw [inner]; exact Bool.false_ne_true), values]
  simp only [List.contains_iff_mem, TreeMap.contains_iff_mem]
  split_ifs <;> simp_all

/-- An evaluation is blocked exactly by a child without an entry. -/
theorem billEvaluation_eq_blocked :
    billEvaluation prune table id node = .blocked ↔ ∃ c ∈ node.children, ¬ table.Covers c := by
  rw [← mapM_distinct_eq_none]
  cases leaf : node.isLeaf with
  | true =>
    have bare : node.distinctChildren = [] := List.eq_nil_iff_forall_not_mem.2 fun c mem =>
      Node.not_mem_children leaf c (mem_distinctClasses.1 mem)
    simp [billEvaluation, leaf, bare]
  | false =>
    cases values : node.distinctChildren.mapM table.get? with
    | none => simp [billEvaluation, leaf, values]
    | some children =>
      rw [billEvaluation_of_children leaf values]
      split_ifs <;> simp

/-- A node is hopeless exactly above a single child with which its class is no better off than it is. -/
theorem hopeless_iff (values : node.distinctChildren.mapM table.get? = some children) :
    hopeless table node children = true ↔ ∃ d below best, (∀ c, c ∈ node.children ↔ c = d) ∧
      TreeMap.get? table d = some below ∧ table.total? node.eclass = some best ∧
      ¬ node.cost + below.total < best := by
  have paired := mapM_eq_some_iff.1 values
  constructor
  · intro worse
    unfold hopeless at worse
    split at worse
    · rename_i child
      obtain ⟨d, _, held, rest, single⟩ := List.forall₂_cons_right_iff.1 paired
      obtain rfl := List.forall₂_nil_right_iff.1 rest
      rw [Bool.not_eq_true'] at worse
      obtain ⟨best, own, notLess⟩ := Cost.not_improves_iff.1 worse
      exact ⟨d, child, best, distinctClasses_eq_singleton.1 single, held, own, notLess⟩
    · cases worse
  · rintro ⟨d, below, best, alone, held, own, notLess⟩
    have single : node.distinctChildren = [d] := distinctClasses_eq_singleton.2 alone
    have drawn : children = [below] := by
      rw [single, List.mapM_cons, held] at values
      exact (Option.some.inj values).symm
    rw [drawn, hopeless, own, Cost.not_improves_some.2 notLess]
    rfl

omit [Cost α] in
theorem mem_merge_below (values : node.distinctChildren.mapM table.get? = some children)
    {d : ClassId} : d ∈ Bill.merge (children.map Entry.detail) ↔ ∃ c ∈ node.children,
      ∃ below : Entry α (Bill α), TreeMap.get? table c = some below ∧ d ∈ below.detail := by
  rw [Bill.mem_merge_iff]
  constructor
  · rintro ⟨bill, mem, listed⟩
    obtain ⟨below, among, rfl⟩ := List.mem_map.1 mem
    obtain ⟨c, child, held⟩ := (children_of_distinct values).2 below among
    exact ⟨c, child, below, held, listed⟩
  · rintro ⟨c, child, below, held, listed⟩
    obtain ⟨below', among, held'⟩ := (children_of_distinct values).1 c child
    obtain rfl := Option.some.inj (held.symm.trans held')
    exact ⟨_, List.mem_map_of_mem among, listed⟩

theorem refuses_iff (values : node.distinctChildren.mapM table.get? = some children) :
    Refuses prune table node ↔ node.eclass ∈ node.children ∨
      (prune && hopeless table node children) = true ∨
      node.eclass ∈ Bill.merge (children.map Entry.detail) := by
  rw [Bool.and_eq_true, hopeless_iff values, mem_merge_below values]
  constructor
  · rintro (self | ⟨child, held, listed⟩ | ⟨shortcut, alone, held, own, worse⟩)
    · exact .inl self
    · exact .inr (.inr ⟨_, child, _, held, listed⟩)
    · exact .inr (.inl ⟨shortcut, _, _, _, alone, held, own, worse⟩)
  · rintro (self | ⟨shortcut, _, _, _, alone, held, own, worse⟩ | ⟨_, child, _, held, listed⟩)
    · exact .loop self
    · exact .hopeless shortcut alone held own worse
    · exact .cycle child held listed

/-- A node is refused for one of its children. -/
theorem Refuses.inner (refuses : Refuses prune table node) : node.children ≠ [] := by
  rintro leaf
  cases refuses with
  | loop self => exact List.not_mem_nil (leaf ▸ self)
  | cycle child held listed => exact List.not_mem_nil (leaf ▸ child)
  | hopeless shortcut alone held own worse => exact List.not_mem_nil (leaf ▸ (alone _).2 rfl)

/-- Where all children have an entry, a node is turned away exactly if it is refused, and else realizes its
class. -/
theorem billEvaluation_of_covered (prune : Bool) (id : NodeId)
    (covered : ∀ c ∈ node.children, table.Covers c) :
    (billEvaluation prune table id node = .rejected ↔ Refuses prune table node) ∧
      (¬ Refuses prune table node →
        ∃ entry, billEvaluation prune table id node = .candidate entry) := by
  cases leaf : node.isLeaf with
  | true =>
    have drawn : billEvaluation prune table id node = .candidate _ :=
      billEvaluation_eq_candidate.2 (.inl ⟨leaf, rfl⟩)
    refine ⟨?_, fun _ => ⟨_, drawn⟩⟩
    rw [drawn]
    exact ⟨nofun, fun refuses => absurd (List.isEmpty_iff.1 leaf) refuses.inner⟩
  | false =>
    obtain ⟨children, values⟩ := exists_below covered
    have decided : Refuses prune table node ↔ _ := refuses_iff values
    rw [billEvaluation_of_children leaf values]
    by_cases refuses : Refuses prune table node
    · rw [if_pos (decided.1 refuses)]
      exact ⟨⟨fun _ => refuses, fun _ => rfl⟩, fun kept => absurd refuses kept⟩
    · rw [if_neg fun reason => refuses (decided.2 reason)]
      exact ⟨⟨nofun, fun reason => absurd reason refuses⟩, fun _ => ⟨_, rfl⟩⟩

/-- An evaluation sees the class, the cost and the distinct children of a node, and nothing else of it. -/
theorem billEvaluation_of_sameChildren (eclass : other.eclass = node.eclass) (cost : other.cost = node.cost)
    (children : ∀ c, c ∈ other.children ↔ c ∈ node.children) :
    billEvaluation prune table id other = billEvaluation prune table id node := by
  have distinct : other.distinctChildren = node.distinctChildren := distinctClasses_congr children
  have leaf : other.isLeaf = node.isLeaf := by
    rw [Bool.eq_iff_iff, Node.isLeaf, Node.isLeaf, List.isEmpty_iff, List.isEmpty_iff,
      List.eq_nil_iff_forall_not_mem, List.eq_nil_iff_forall_not_mem]
    simp only [children]
  have self : other.children.contains node.eclass = node.children.contains node.eclass := by
    rw [Bool.eq_iff_iff, List.contains_iff_mem, List.contains_iff_mem, children]
  have hope : hopeless table other = hopeless table node := by
    funext entries
    unfold hopeless
    rw [eclass, cost]
  have drawn : billed id other = billed id node := by
    funext below
    unfold billed
    rw [eclass, cost]
  unfold billEvaluation
  rw [distinct, leaf, hope, drawn, eclass, cost, self]

end Plan

end Extraction
