import Extraction.Graph.Redundancy
import Extraction.Proofs.Graph.Lookup

/-! What is left when redundant nodes are dropped. A node of every kind is kept, so that no class goes
and the graph seals as before; what is kept of a kind has the children of the others up to their order,
but it need not cost as little as they do. -/
namespace Extraction

variable {α : Type} [Cost α]

theorem mem_signature {classes : List ClassId} {c : ClassId} {n : Nat} :
    (c, n) ∈ signature classes ↔ c ∈ classes ∧ classes.count c = n := by
  simp only [signature, List.mem_map, mem_distinctClasses, Prod.mk.injEq]
  constructor
  · rintro ⟨d, mem, rfl, rfl⟩
    exact ⟨mem, rfl⟩
  · rintro ⟨mem, rfl⟩
    exact ⟨c, mem, rfl, rfl⟩

/-- Lists of one signature are rearrangements of each other. -/
theorem perm_of_signature_eq {classes classes' : List ClassId}
    (same : signature classes = signature classes') : classes.Perm classes' := by
  apply List.perm_iff_count.2
  intro c
  by_cases mem : c ∈ classes
  · have listed := mem_signature.2 ⟨mem, rfl⟩
    rw [same] at listed
    exact (mem_signature.1 listed).2.symm
  · have absent : c ∉ classes' := by
      intro mem'
      have listed := mem_signature.2 ⟨mem', rfl⟩
      rw [← same] at listed
      exact mem (mem_signature.1 listed).1
    rw [List.count_eq_zero_of_not_mem mem, List.count_eq_zero_of_not_mem absent]

section Repeated
variable {entries : List (NodeId × Node α)} {e : NodeId × Node α}
  {seen : List (ClassId × List (ClassId × Nat))}

omit [Cost α] in
theorem repeated_cons_of_mem (again : e.2.kind ∈ seen) :
    repeated seen (e :: entries) = e.1 :: repeated seen entries := by
  simp [repeated, again]

omit [Cost α] in
theorem repeated_cons_of_notMem (new : e.2.kind ∉ seen) :
    repeated seen (e :: entries) = repeated (e.2.kind :: seen) entries := by
  simp [repeated, new]

omit [Cost α] in
theorem mem_of_repeated {id : NodeId}
    (h : id ∈ repeated seen entries) : id ∈ entries.map Prod.fst := by
  induction entries generalizing seen with
  | nil => cases h
  | cons e entries ih =>
    rw [repeated] at h
    split at h
    · obtain rfl | later := List.mem_cons.1 h
      · exact List.mem_cons_self
      · exact List.mem_cons_of_mem _ (ih later)
    · exact List.mem_cons_of_mem _ (ih h)

omit [Cost α] in
/-- Of every kind that was not seen before, there is a node that does not repeat it. -/
theorem exists_not_repeated (seen : List (ClassId × List (ClassId × Nat)))
    (distinct : (entries.map Prod.fst).Nodup) : ∀ e ∈ entries, e.2.kind ∈ seen ∨
      ∃ k ∈ entries, k.1 ∉ repeated seen entries ∧ k.2.kind = e.2.kind := by
  -- `seen` has the kinds of the nodes before, each once; the first of a kind is the one that is kept.
  induction entries generalizing seen with
  | nil => exact fun e h => by cases h
  | cons first entries ih =>
    obtain ⟨id, node⟩ := first
    obtain ⟨fresh, distinct⟩ := List.nodup_cons.1 distinct
    have apart : ∀ k ∈ entries, k.1 ≠ id := by
      intro k mem same
      have listed : k.1 ∈ entries.map Prod.fst := List.mem_map_of_mem mem
      exact fresh (same ▸ listed)
    rw [List.forall_mem_cons]
    by_cases again : node.kind ∈ seen
    · rw [repeated_cons_of_mem again]
      refine ⟨.inl again, ?_⟩
      intro e mem
      obtain old | ⟨k, among, kept, same⟩ := ih seen distinct e mem
      · exact .inl old
      · exact .inr ⟨k, List.mem_cons_of_mem _ among, by simp [apart k among, kept], same⟩
    · rw [repeated_cons_of_notMem again]
      have kept : id ∉ repeated (node.kind :: seen) entries := fun h => fresh (mem_of_repeated h)
      refine ⟨.inr ⟨(id, node), List.mem_cons_self, kept, rfl⟩, ?_⟩
      intro e mem
      obtain old | ⟨k, among, kept', same⟩ := ih (node.kind :: seen) distinct e mem
      · obtain same | older := List.mem_cons.1 old
        · exact .inr ⟨(id, node), List.mem_cons_self, kept, same.symm⟩
        · exact .inl older
      · exact .inr ⟨k, List.mem_cons_of_mem _ among, kept', same⟩

end Repeated

namespace Draft

theorem mem_dropRedundant {d : Draft α} {e : NodeId × Node α} :
    e ∈ d.dropRedundant.nodes.toList ↔ e ∈ d.nodes.toList ∧ e.1 ∉ d.redundant := by
  simp [dropRedundant, removeNodes, filterNodes, OrderedMap.mem_filter]

/-- Of every kind, a node is kept. -/
theorem exists_kept (d : Draft α) {e : NodeId × Node α} (mem : e ∈ d.nodes.toList) :
    ∃ k ∈ d.dropRedundant.nodes.toList, k.2.kind = e.2.kind := by
  obtain seen | ⟨k, among, kept, same⟩ := exists_not_repeated [] d.nodes.nodup e mem
  · cases seen
  · exact ⟨k, mem_dropRedundant.2 ⟨among, kept⟩, same⟩

/-- No node that is dropped costs less than the one that is kept of its kind. -/
def KeepsCheapest (d : Draft α) : Prop :=
  ∀ e ∈ d.nodes.toList, ∀ k ∈ d.dropRedundant.nodes.toList, k.2.kind = e.2.kind →
    ¬ e.2.cost < k.2.cost

theorem mem_classes_dropRedundant {d : Draft α} {c : ClassId} :
    c ∈ d.dropRedundant.classes ↔ c ∈ d.classes := by
  rw [mem_classes, mem_classes]
  constructor
  · rintro ⟨e, kept, owner⟩
    exact ⟨e, (mem_dropRedundant.1 kept).1, owner⟩
  · rintro ⟨e, mem, rfl⟩
    obtain ⟨k, kept, same⟩ := d.exists_kept mem
    exact ⟨k, kept, congrArg Prod.fst same⟩

/-- A draft seals into the one graph that holds it, if there is one. -/
theorem toGraph_eq_ok_iff {d : Draft α} {g : EGraph α} : d.toGraph = .ok g ↔ g.draft = d := by
  unfold toGraph
  dsimp only
  constructor
  · intro sealed
    split at sealed
    · cases sealed
    split at sealed
    · cases sealed
    rw [← Except.ok.inj sealed]
  · rintro rfl
    obtain ⟨d, classes, rfl, children, roots⟩ := g
    have inside : d.danglingChild? d.classes = none := by
      simpa [danglingChild?] using children
    have inside' : d.danglingRoot? d.classes = none := by
      simpa [danglingRoot?] using roots
    split
    · rename_i found
      cases inside.symm.trans found
    split
    · rename_i found
      cases inside'.symm.trans found
    rfl

end Draft

/-- The graph without its redundant nodes. -/
def EGraph.dropRedundant (g : EGraph α) : EGraph α where
  draft := g.draft.dropRedundant
  classes := g.draft.dropRedundant.classes
  classes_eq := rfl
  childrenPresent := by
    intro e kept c child
    rw [Draft.mem_classes_dropRedundant, ← g.classes_eq]
    exact g.childrenPresent e (Draft.mem_dropRedundant.1 kept).1 c child
  rootsPresent := by
    intro r root
    rw [Draft.mem_classes_dropRedundant, ← g.classes_eq]
    exact g.rootsPresent r root

namespace EGraph
variable {g : EGraph α} {id : NodeId} {node : Node α}

theorem node?_of_dropRedundant (kept : g.dropRedundant.node? id = some node) :
    g.node? id = some node :=
  OrderedMap.get?_eq_some_iff.2 (Draft.mem_dropRedundant.1 (mem_of_node? kept)).1

/-- The node that is kept of the kind of a node. -/
def keeper (g : EGraph α) (id : NodeId) : NodeId :=
  ((g.node? id).bind fun node =>
    (g.dropRedundant.nodes.toList.find? fun e => e.2.kind = node.kind).map Prod.fst).getD id

theorem exists_keeper (stored : g.node? id = some node) :
    ∃ kept, g.dropRedundant.node? (g.keeper id) = some kept ∧ kept.kind = node.kind := by
  obtain ⟨k, mem, same⟩ := g.draft.exists_kept (mem_of_node? stored)
  have some : (g.dropRedundant.nodes.toList.find? fun e => e.2.kind = node.kind).isSome :=
    List.find?_isSome.2 ⟨k, mem, by simpa using same⟩
  obtain ⟨e, found⟩ := Option.isSome_iff_exists.1 some
  have keeper : g.keeper id = e.1 := by
    rw [EGraph.keeper, stored, Option.bind_some, found]
    rfl
  rw [keeper]
  exact ⟨e.2, OrderedMap.get?_eq_some_iff.2 (List.mem_of_find?_eq_some found),
    by simpa using List.find?_some found⟩

end EGraph

end Extraction
