import Extraction.Proofs.Double.Product
import Extraction.Proofs.Selection.Hints
import Mathlib.Data.List.Induction
import Mathlib.Data.List.Sort

/-! Totals that are recorded one after the other. Which nodes they rule out depends on the least total of each
node and of its class, not on the order of the records; a class with a total keeps a node, and a greater bound
rules out less. -/
namespace Extraction
open Std

/-- The order of nodes: by their classes, then by their indices. -/
def NodeId.Precedes (a b : NodeId) : Prop := compare a b = .lt

instance : Std.Irrefl NodeId.Precedes where
  irrefl a less := by
    cases ReflCmp.compare_self.symm.trans less

instance : Std.Antisymm NodeId.Precedes where
  antisymm _ _ less greater := absurd greater (OrientedCmp.not_lt_of_lt less)

namespace Selection

variable {α : Type} [Cost α]

/-- What is known after the records, of which the first one stands first. -/
def ofRecords (records : List (NodeId × Option α)) : Selection α :=
  records.foldl (fun s r => s.record r.1 r.2) ∅

/-- A total recorded for one of the nodes that no total recorded for one of them is below. -/
structure LeastRecorded (records : List (NodeId × Option α)) (among : NodeId → Prop) (total : α) :
    Prop where
  recorded : ∃ id, among id ∧ (id, some total) ∈ records
  least : ∀ id x, among id → (id, some x) ∈ records → ¬ x < total

variable {s : Selection α} {records : List (NodeId × Option α)} {among : NodeId → Prop} {id : NodeId}
  {c : ClassId} {least least' own own' a b x : α} {bound bound' : α}

/-- Two least totals are alike. -/
theorem LeastRecorded.not_lt (h : LeastRecorded records among a) (h' : LeastRecorded records among b) :
    ¬ a < b := by
  obtain ⟨id, mem, recorded⟩ := h.recorded
  exact h'.least id a mem recorded

/-- The totals recorded for a node, in the order of the records. -/
def totalsFor (records : List (NodeId × Option α)) (id : NodeId) : List (Option α) :=
  (records.filter fun r => r.1 = id).map Prod.snd

omit [Cost α] in
theorem mem_totalsFor {total : Option α} : total ∈ totalsFor records id ↔ (id, total) ∈ records := by
  simp [totalsFor]

/-- A node with records has the least of its totals, another one has no entry. -/
theorem get?_ofRecords (records : List (NodeId × Option α)) (id : NodeId) :
    (ofRecords records).candidates.get? id =
      if totalsFor records id = [] then none else some ((totalsFor records id).foldl lesser none) := by
  induction records using List.reverseRecOn with
  | nil => rfl
  | append_singleton records r ih =>
    have last : (ofRecords (records ++ [r])).candidates =
        recordTotal (ofRecords records).candidates r.1 r.2 := by
      rw [ofRecords, List.foldl_concat]
      rfl
    have totals : totalsFor (records ++ [r]) id =
        totalsFor records id ++ if r.1 = id then [r.2] else [] := by
      by_cases same : r.1 = id <;> simp [totalsFor, same]
    rw [last, get?_recordTotal, ih, totals]
    by_cases same : r.1 = id
    · have filled : totalsFor records id ++ [r.2] ≠ [] := List.append_ne_nil_of_right_ne_nil _ nofun
      rw [if_pos same, if_pos same, if_neg filled, List.foldl_concat]
      by_cases fresh : totalsFor records id = []
      · rw [if_pos fresh, fresh]
        rfl
      · rw [if_neg fresh, Option.getD_some]
    · rw [if_neg same, if_neg same, List.append_nil]

theorem get?_ofRecords_of_mem {total : Option α} (mem : (id, total) ∈ records) :
    (ofRecords records).candidates.get? id = some ((totalsFor records id).foldl lesser none) := by
  rw [get?_ofRecords, if_neg (List.ne_nil_of_mem (mem_totalsFor.2 mem))]

theorem exists_mem_of_get? {total : Option α}
    (entry : (ofRecords records).candidates.get? id = some total) : ∃ total', (id, total') ∈ records := by
  rw [get?_ofRecords] at entry
  split at entry
  · cases entry
  · rename_i filled
    obtain ⟨total', mem⟩ := List.exists_mem_of_ne_nil _ filled
    exact ⟨total', mem_totalsFor.1 mem⟩

/-- What is kept of a node was recorded for it. -/
theorem mem_of_get? (entry : (ofRecords records).candidates.get? id = some (some x)) :
    (id, some x) ∈ records := by
  obtain ⟨_, mem⟩ := exists_mem_of_get? entry
  have same := Option.some.inj (entry.symm.trans (get?_ofRecords_of_mem mem))
  obtain nothing | listed := foldl_lesser_mem none (totalsFor records id)
  · cases same.trans nothing
  · rw [← same] at listed
    exact mem_totalsFor.1 listed

theorem leastRecorded_of_mem_iff {others : List (NodeId × Option α)}
    (same : ∀ r, r ∈ others ↔ r ∈ records) :
    LeastRecorded others among a ↔ LeastRecorded records among a := by
  constructor
  · rintro ⟨⟨id, mem, recorded⟩, least⟩
    exact ⟨⟨id, mem, (same _).1 recorded⟩, fun id x mem listed => least id x mem ((same _).2 listed)⟩
  · rintro ⟨⟨id, mem, recorded⟩, least⟩
    exact ⟨⟨id, mem, (same _).2 recorded⟩, fun id x mem listed => least id x mem ((same _).1 listed)⟩

theorem pairwise_zeroNodes (s : Selection α) (bound : α) :
    (s.zeroNodes bound).Pairwise NodeId.Precedes := by
  have keys : (s.candidates.toList.map Prod.fst).Pairwise NodeId.Precedes := by
    rw [TreeMap.map_fst_toList_eq_keys]
    exact TreeMap.ordered_keys
  exact keys.sublist (List.filter_sublist.map _)

section Least
variable [OrderedCost α]

/-- What is kept of a node is not above any of its totals. -/
theorem exists_entry (mem : (id, some a) ∈ records) :
    ∃ b, (ofRecords records).candidates.get? id = some (some b) ∧ ¬ a < b := by
  rw [get?_ofRecords_of_mem mem]
  have unimproved : Cost.improves a ((totalsFor records id).foldl lesser none) = false :=
    not_improves_foldl_lesser (mem_totalsFor.2 mem)
  obtain ⟨b, kept, notLess⟩ := Cost.not_improves_iff.1 unimproved
  exact ⟨b, congrArg some kept, notLess⟩

theorem leastRecorded_of_get? (entry : (ofRecords records).candidates.get? id = some (some x)) :
    LeastRecorded records (· = id) x := by
  refine ⟨⟨id, rfl, mem_of_get? entry⟩, ?_⟩
  rintro _ y rfl mem
  obtain ⟨b, entry', notLess⟩ := exists_entry mem
  obtain rfl := Option.some.inj (Option.some.inj (entry.symm.trans entry'))
  exact notLess

theorem exists_leastTotal (mem : (id, some a) ∈ records) :
    ∃ least, (ofRecords records).leastTotal? id.owner = some least := by
  obtain ⟨b, entry, _⟩ := exists_entry mem
  obtain ⟨least, attained, _⟩ := Cost.not_improves_iff.1 (not_improves_leastTotal entry)
  exact ⟨least, attained⟩

variable (positive : ∀ id x, (id, some x) ∈ records → Cost.Nonnegative x)
include positive

omit [OrderedCost α] in
theorem LeastRecorded.nonnegative (h : LeastRecorded records among a) : Cost.Nonnegative a := by
  obtain ⟨id, _, recorded⟩ := h.recorded
  exact positive id a recorded

theorem leastRecorded_of_leastTotal (attained : (ofRecords records).leastTotal? c = some least) :
    LeastRecorded records (fun id => id.owner = c) least := by
  obtain ⟨id, owner, entry⟩ := exists_of_leastTotal attained
  refine ⟨⟨id, owner, mem_of_get? entry⟩, ?_⟩
  rintro id' y rfl mem
  obtain ⟨b, entry', notLess⟩ := exists_entry mem
  have above := not_improves_leastTotal entry'
  rw [attained, Cost.not_improves_some] at above
  exact OrderedCost.not_lt_trans (positive _ _ (mem_of_get? entry)) (positive _ _ (mem_of_get? entry'))
    (positive _ _ mem) above notLess

end Least

section Bound
variable [MonotoneCost α]

/-- What is beyond a bound stays beyond it where the total and the bound are no greater, and what is more too. -/
theorem scaled_lt (nonnegative : Cost.Nonnegative least) (nonnegative' : Cost.Nonnegative least')
    (positive : Cost.Nonnegative own) (positive' : Cost.Nonnegative own') (finite : Cost.isFinite bound = true)
    (factor : ¬ bound < 1) (finite' : Cost.isFinite bound' = true) (factor' : ¬ bound' < 1)
    (lower : ¬ least' < least) (closer : ¬ bound' < bound) (higher : ¬ own' < own)
    (beyond : least' * bound' < own) : least * bound < own' := by
  have scaled := ScaledCost.nonnegative_mul nonnegative finite factor
  have scaled' := ScaledCost.nonnegative_mul nonnegative' finite' factor'
  have products := MonotoneCost.mul_not_lt_mul nonnegative nonnegative' finite finite' factor factor'
    lower closer
  have between := OrderedCost.lt_of_not_lt_of_lt scaled scaled' positive products beyond
  exact OrderedCost.lt_of_lt_of_not_lt scaled positive positive' between higher

variable (positive : ∀ id x, (id, some x) ∈ records → Cost.Nonnegative x)
  (finite : Cost.isFinite bound = true) (factor : ¬ bound < 1)
include positive finite factor

theorem mem_zeroNodes_ofRecords : id ∈ (ofRecords records).zeroNodes bound ↔
    (∃ total, (id, total) ∈ records) ∧
      ∃ least, LeastRecorded records (fun other => other.owner = id.owner) least ∧
        ((∀ own, (id, some own) ∉ records) ∨
          ∃ own, LeastRecorded records (· = id) own ∧ least * bound < own) := by
  rw [mem_zeroNodes]
  constructor
  · rintro ⟨total, least, entry, attained, beyond⟩
    refine ⟨exists_mem_of_get? entry, least, leastRecorded_of_leastTotal positive attained, ?_⟩
    cases total with
    | none =>
      refine .inl fun own mem => ?_
      obtain ⟨b, entry', _⟩ := exists_entry mem
      cases entry.symm.trans entry'
    | some own => exact .inr ⟨own, leastRecorded_of_get? entry, of_decide_eq_true beyond⟩
  · rintro ⟨⟨total, mem⟩, least, attains, missing | ⟨own, owns, beyond⟩⟩
    all_goals
      obtain ⟨other, sibling, recorded⟩ := attains.recorded
      obtain ⟨least', attained⟩ := exists_leastTotal recorded
      rw [sibling] at attained
    · refine ⟨_, least', get?_ofRecords_of_mem mem, attained, ?_⟩
      cases kept : (totalsFor records id).foldl lesser none with
      | none => rfl
      | some x =>
        have entry := get?_ofRecords_of_mem mem
        rw [kept] at entry
        exact absurd (mem_of_get? entry) (missing x)
    · -- The least totals that are kept may be others than the given ones, but they are alike.
      obtain ⟨_, rfl, recorded'⟩ := owns.recorded
      obtain ⟨own', entry, _⟩ := exists_entry recorded'
      have attains' := leastRecorded_of_leastTotal positive attained
      have owns' := leastRecorded_of_get? entry
      refine ⟨some own', least', entry, attained, decide_eq_true ?_⟩
      exact scaled_lt (attains'.nonnegative positive) (attains.nonnegative positive)
        (owns.nonnegative positive) (owns'.nonnegative positive) finite factor finite factor
        (attains.not_lt attains') (OrderedCost.irrefl bound) (owns'.not_lt owns) beyond

/-- A node with the least total of its class is spared. -/
theorem not_mem_zeroNodes_of_least (mem : (id, some a) ∈ records)
    (least : LeastRecorded records (fun other => other.owner = id.owner) a) :
    id ∉ (ofRecords records).zeroNodes bound := by
  have nonnegative : (ofRecords records).Nonnegative := fun entry => positive _ _ (mem_of_get? entry)
  obtain ⟨b, entry, notLess⟩ := exists_entry mem
  have cheapest : (ofRecords records).Cheapest id.owner id b := by
    refine ⟨rfl, entry, fun {other x} sibling entry' => ?_⟩
    have above := least.least other x sibling (mem_of_get? entry')
    exact OrderedCost.not_lt_trans (nonnegative entry) (positive _ _ mem) (nonnegative entry') notLess above
  exact cheapest.not_mem_zeroNodes nonnegative finite factor

theorem exists_spared (mem : (id, some a) ∈ records) :
    ∃ other b, other.owner = id.owner ∧ (other, some b) ∈ records ∧
      other ∉ (ofRecords records).zeroNodes bound := by
  obtain ⟨least, attained⟩ := exists_leastTotal mem
  have attains := leastRecorded_of_leastTotal positive attained
  obtain ⟨other, sibling, recorded⟩ := attains.recorded
  rw [← sibling] at attains
  exact ⟨other, least, sibling, recorded,
    not_mem_zeroNodes_of_least positive finite factor recorded attains⟩

theorem zeroNodes_eq_of_mem_iff {others : List (NodeId × Option α)}
    (same : ∀ r, r ∈ others ↔ r ∈ records) :
    (ofRecords others).zeroNodes bound = (ofRecords records).zeroNodes bound := by
  refine (pairwise_zeroNodes _ bound).eq_of_mem_iff (pairwise_zeroNodes _ bound) fun id => ?_
  rw [mem_zeroNodes_ofRecords positive finite factor,
    mem_zeroNodes_ofRecords (fun id x mem => positive id x ((same _).1 mem)) finite factor]
  simp only [same, leastRecorded_of_mem_iff same]

theorem zeroNodes_sublist (finite' : Cost.isFinite bound' = true) (factor' : ¬ bound' < 1)
    (greater : ¬ bound' < bound) :
    ((ofRecords records).zeroNodes bound').Sublist ((ofRecords records).zeroNodes bound) := by
  have ascending := fun b => pairwise_zeroNodes (ofRecords records) b
  refine List.sublist_of_subperm_of_pairwise ?_ (ascending bound') (ascending bound)
  refine List.subperm_of_subset (ascending bound').nodup fun id hinted => ?_
  rw [mem_zeroNodes_ofRecords positive finite' factor'] at hinted
  rw [mem_zeroNodes_ofRecords positive finite factor]
  obtain ⟨recorded, least, attains, missing | ⟨own, owns, beyond⟩⟩ := hinted
  · exact ⟨recorded, least, attains, .inl missing⟩
  · have nonnegative := attains.nonnegative positive
    have nonnegative' := owns.nonnegative positive
    refine ⟨recorded, least, attains, .inr ⟨own, owns, ?_⟩⟩
    exact scaled_lt nonnegative nonnegative nonnegative' nonnegative' finite factor finite' factor'
      (OrderedCost.irrefl least) greater (OrderedCost.irrefl own) beyond

end Bound

/-- After any records of costs that are not below zero, and for any finite bound of one or more, the nodes that are
ruled out stand in ascending order. They are the recorded nodes whose class has a least total and that have no
total or one beyond the bound times that. In whatever order and however often the same records come in, they rule
out the same nodes. Each node with the least total of its class is spared, so a class with a total keeps a node,
and a greater bound rules out no other nodes. -/
theorem zeroNodes_ofRecords [MonotoneCost α] (records : List (NodeId × Option α))
    (positive : ∀ id x, (id, some x) ∈ records → Cost.Nonnegative x) (bound : α)
    (finite : Cost.isFinite bound = true) (factor : ¬ bound < 1) :
    ((ofRecords records).zeroNodes bound).Pairwise NodeId.Precedes ∧
      (∀ id, id ∈ (ofRecords records).zeroNodes bound ↔
        (∃ total, (id, total) ∈ records) ∧
          ∃ least, LeastRecorded records (fun other => other.owner = id.owner) least ∧
            ((∀ own, (id, some own) ∉ records) ∨
              ∃ own, LeastRecorded records (· = id) own ∧ least * bound < own)) ∧
      (∀ others : List (NodeId × Option α), (∀ r, r ∈ others ↔ r ∈ records) →
        (ofRecords others).zeroNodes bound = (ofRecords records).zeroNodes bound) ∧
      (∀ id total, (id, some total) ∈ records →
        LeastRecorded records (fun other => other.owner = id.owner) total →
        id ∉ (ofRecords records).zeroNodes bound) ∧
      (∀ id total, (id, some total) ∈ records →
        ∃ other least, other.owner = id.owner ∧ (other, some least) ∈ records ∧
          other ∉ (ofRecords records).zeroNodes bound) ∧
      ∀ greater : α, Cost.isFinite greater = true → ¬ greater < 1 → ¬ greater < bound →
        ((ofRecords records).zeroNodes greater).Sublist ((ofRecords records).zeroNodes bound) :=
  ⟨pairwise_zeroNodes _ bound,
    fun _ => mem_zeroNodes_ofRecords positive finite factor,
    fun _ => zeroNodes_eq_of_mem_iff positive finite factor,
    fun _ _ => not_mem_zeroNodes_of_least positive finite factor,
    fun _ _ => exists_spared positive finite factor,
    fun _ => zeroNodes_sublist positive finite factor⟩

/-- Two classes, one of them without a total. A node comes in again and has a lesser total then. -/
def talliedRecords : List (NodeId × Option Float) :=
  [(⟨⟨0⟩, 0⟩, some 4.0), (⟨⟨0⟩, 1⟩, some 5.0), (⟨⟨0⟩, 2⟩, some 5.5), (⟨⟨0⟩, 3⟩, none),
    (⟨⟨0⟩, 2⟩, some 4.5), (⟨⟨0⟩, 2⟩, none), (⟨⟨1⟩, 0⟩, none)]

theorem talliedRecords_zeroNodes :
    (ofRecords talliedRecords).zeroNodes 1.25 = [⟨⟨0⟩, 3⟩] ∧
      (ofRecords talliedRecords).zeroNodes 1.0 = [⟨⟨0⟩, 1⟩, ⟨⟨0⟩, 2⟩, ⟨⟨0⟩, 3⟩] ∧
      ((ofRecords talliedRecords).zeroNodes 1.25).Sublist ((ofRecords talliedRecords).zeroNodes 1.0) := by
  have positive : ∀ id x, (id, some x) ∈ talliedRecords → Cost.Nonnegative x := by
    have all : ∀ r ∈ talliedRecords, ∀ x ∈ r.2, Cost.isNaN x = false ∧ ¬ x < 0 := by decide +kernel
    exact fun id x mem => all (id, some x) mem x rfl
  obtain ⟨_, _, _, _, _, greater⟩ :=
    zeroNodes_ofRecords talliedRecords positive 1.0 (by decide +kernel) (by decide +kernel)
  exact ⟨by decide +kernel, by decide +kernel,
    greater 1.25 (by decide +kernel) (by decide +kernel) (by decide +kernel)⟩

end Selection

end Extraction
