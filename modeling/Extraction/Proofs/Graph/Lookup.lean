import Extraction.Graph.Sealed
import Extraction.Proofs.Collections
import Extraction.Proofs.Cost.Laws
import Mathlib.Logic.Basic

/-! Looking things up in a sealed graph: which nodes, members, parents and classes there are. -/
namespace Extraction

variable {α : Type} [Cost α]

theorem Draft.mem_classes {d : Draft α} {c : ClassId} :
    c ∈ d.classes ↔ ∃ e ∈ d.nodes.toList, e.2.eclass = c := by
  simp [classes, OrderedMap.values]

namespace EGraph

theorem mem_keys_iff {g : EGraph α} {id : NodeId} :
    id ∈ g.nodes.keys ↔ ∃ node, g.node? id = some node :=
  OrderedMap.mem_keys_iff.trans Option.isSome_iff_exists

theorem mem_of_node? {g : EGraph α} {id : NodeId} {node : Node α} (h : g.node? id = some node) :
    (id, node) ∈ g.nodes.toList := OrderedMap.get?_eq_some_iff.1 h

theorem owner_of_node? {g : EGraph α} {id : NodeId} {node : Node α} (h : g.node? id = some node) :
    id.owner = node.eclass := (g.draft.accepted _ (mem_of_node? h)).owner

theorem mem_keys_filter {g : EGraph α} {p : NodeId → Node α → Bool} {id : NodeId} :
    id ∈ (g.nodes.filter p).keys ↔ ∃ node, g.node? id = some node ∧ p id node = true := by
  simp only [OrderedMap.keys, List.mem_map, OrderedMap.mem_filter, node?,
    OrderedMap.get?_eq_some_iff]
  constructor
  · rintro ⟨⟨id', node⟩, ⟨stored, holds⟩, rfl⟩
    exact ⟨node, stored, holds⟩
  · rintro ⟨node, stored, holds⟩
    exact ⟨(id, node), ⟨stored, holds⟩, rfl⟩

theorem mem_parents {g : EGraph α} {c : ClassId} {id : NodeId} :
    id ∈ g.parents c ↔ ∃ node, g.node? id = some node ∧ c ∈ node.children := by
  simp [parents, mem_keys_filter]

theorem mem_membersOf {g : EGraph α} {c : ClassId} {id : NodeId} :
    id ∈ g.membersOf c ↔ ∃ node, g.node? id = some node ∧ node.eclass = c := by
  have filtered : g.membersOf c = (g.nodes.filter fun _ node => node.eclass = c).keys := rfl
  simp [filtered, mem_keys_filter]

theorem mem_classes {g : EGraph α} {c : ClassId} :
    c ∈ g.classes ↔ ∃ id node, g.node? id = some node ∧ node.eclass = c := by
  rw [g.classes_eq, Draft.mem_classes]
  constructor
  · rintro ⟨⟨id, node⟩, stored, owner⟩
    exact ⟨id, node, OrderedMap.get?_eq_some_iff.2 stored, owner⟩
  · rintro ⟨id, node, stored, owner⟩
    exact ⟨(id, node), mem_of_node? stored, owner⟩

theorem child_mem_classes {g : EGraph α} {id : NodeId} {node : Node α} {c : ClassId}
    (h : g.node? id = some node) (child : c ∈ node.children) : c ∈ g.classes :=
  g.childrenPresent _ (mem_of_node? h) c child

theorem nonnegative_cost [OrderedCost α] {g : EGraph α} {id : NodeId} {node : Node α}
    (h : g.node? id = some node) : Cost.Nonnegative node.cost := by
  have accepted := g.draft.accepted _ (mem_of_node? h)
  exact OrderedCost.nonnegative_of_finite accepted.finite accepted.nonnegative

theorem nodup_classes (g : EGraph α) : g.classes.Nodup := by
  rw [g.classes_eq]
  exact nodup_eraseDups _

end EGraph

end Extraction
