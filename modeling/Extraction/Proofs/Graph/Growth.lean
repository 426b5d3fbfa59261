import Extraction.Proofs.Collections
import Extraction.Proofs.Graph.Edit

/-! Drafts from which no node was taken out. What they count as the next index of a class is one more than
an index in use, so that their next indices can be told from their nodes. -/
namespace Extraction

/-- A next index that is recorded for a class follows one of these identities. -/
def TightOver (next : Std.TreeMap ClassId UInt32) (ids : List NodeId) : Prop :=
  ∀ c n, next.get? c = some n → ∃ id ∈ ids, id.owner = c ∧ n = id.index + 1

theorem TightOver.use {next : Std.TreeMap ClassId UInt32} {ids : List NodeId}
    (tight : TightOver next ids) (id : NodeId) :
    TightOver (useIndex next id.owner (id.index + 1)) (ids ++ [id]) := by
  intro c n recorded
  rw [useIndex, get?_insert] at recorded
  split at recorded
  · rename_i own
    subst own
    rw [← Option.some.inj recorded, getD_eq_get?]
    change ∃ id' ∈ ids ++ [id], id'.owner = id.owner ∧ (if _ ≤ _ then _ else _) = id'.index + 1
    split
    · exact ⟨id, by simp, rfl, rfl⟩
    · rename_i above
      cases held : next.get? id.owner with
      | none =>
        rw [held] at above
        exact absurd (UInt32.zero_le) above
      | some n =>
        obtain ⟨id', mem, same⟩ := tight _ n held
        exact ⟨id', List.mem_append_left _ mem, same⟩
  · obtain ⟨id', mem, same⟩ := tight c n recorded
    exact ⟨id', List.mem_append_left _ mem, same⟩

theorem TightOver.foldl_use {next : Std.TreeMap ClassId UInt32} {ids more : List NodeId}
    (tight : TightOver next ids) :
    TightOver (more.foldl (fun next id => useIndex next id.owner (id.index + 1)) next) (ids ++ more) := by
  induction more generalizing next ids with
  | nil => rwa [List.append_nil]
  | cons id more ih =>
    have tight := ih (tight.use id)
    rwa [List.append_assoc] at tight

namespace Draft
variable {α : Type} [Cost α]

/-- Every next index follows an index in use. -/
def Tight (d : Draft α) : Prop := TightOver d.nextIndex d.nodes.keys

theorem tight_withOps (ops : OpTable) : (withOps ops : Draft α).Tight := by
  intro c n recorded
  rw [withOps, Std.TreeMap.get?_eq_getElem?, Std.TreeMap.getElem?_emptyc] at recorded
  cases recorded

/-- No edit takes a node out. -/
def Growing (d : Draft α) : List (Edit α) → Prop
  | [] => True
  | e :: edits => (∀ id ∈ d.nodes.keys, id ∈ (e.apply d).nodes.keys) ∧ (e.apply d).Growing edits

theorem Change.tight {d d' : Draft α} (change : d.Change d') (tight : d.Tight)
    (kept : ∀ id ∈ d.nodes.keys, id ∈ d'.nodes.keys) : d'.Tight := by
  cases change with
  | same nodes next =>
    rw [Tight, nodes, next]
    exact tight
  | stored id node fresh nodes next =>
    have keys : d'.nodes.keys = d.nodes.keys ++ [id] := by
      rw [OrderedMap.keys, nodes, List.map_append]
      rfl
    rw [Tight, keys, next]
    exact tight.use id
  | removed p nodes next =>
    intro c n recorded
    rw [next] at recorded
    obtain ⟨id, mem, same⟩ := tight c n recorded
    exact ⟨id, kept id mem, same⟩

theorem Growing.tight {edits : List (Edit α)} {d : Draft α} (growing : d.Growing edits) (tight : d.Tight) :
    (d.edited edits).Tight := by
  induction edits generalizing d with
  | nil => exact tight
  | cons e edits ih => exact ih growing.2 ((e.change d).tight tight growing.1)

theorem Tight.le_get? {d d' : Draft α} (tight : d.Tight) (known : ∀ id ∈ d.nodes.keys, id ∈ d'.nodes.keys)
    {c : ClassId} {n : UInt32} (recorded : d.nextIndex.get? c = some n) :
    ∃ m, d'.nextIndex.get? c = some m ∧ n ≤ m := by
  obtain ⟨id, mem, rfl, rfl⟩ := tight c n recorded
  obtain ⟨e, stored, rfl⟩ := List.mem_map.1 (known id mem)
  have used := (d'.accepted e stored).indexed
  rw [getD_eq_get?] at used
  cases held : d'.nextIndex.get? e.1.owner with
  | none =>
    rw [held] at used
    exact absurd used (UInt32.not_lt_zero)
  | some m =>
    rw [held, Option.getD_some, UInt32.lt_iff_toNat_lt] at used
    refine ⟨m, rfl, ?_⟩
    have := m.toNat_lt
    rw [UInt32.le_iff_toNat_le, UInt32.toNat_add]
    simp only [UInt32.reduceToNat]
    omega

/-- Drafts with the same identities in use have the same next indices if both are tight. -/
theorem Tight.get?_eq {d d' : Draft α} (tight : d.Tight) (tight' : d'.Tight)
    (same : ∀ id, id ∈ d.nodes.keys ↔ id ∈ d'.nodes.keys) (c : ClassId) :
    d.nextIndex.get? c = d'.nextIndex.get? c := by
  have le {d d' : Draft α} (tight : d.Tight) (tight' : d'.Tight)
      (same : ∀ id, id ∈ d.nodes.keys ↔ id ∈ d'.nodes.keys) {n : UInt32}
      (recorded : d.nextIndex.get? c = some n) : d'.nextIndex.get? c = some n := by
    obtain ⟨m, recorded', le⟩ := tight.le_get? (fun id => (same id).1) recorded
    obtain ⟨n', again, le'⟩ := tight'.le_get? (fun id => (same id).2) recorded'
    cases recorded.symm.trans again
    rw [recorded', UInt32.le_antisymm le le']
  ext n
  exact ⟨le tight tight' same, le tight' tight fun id => (same id).symm⟩

end Draft

end Extraction
