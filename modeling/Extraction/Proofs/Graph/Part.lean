import Extraction.Proofs.Graph.Lookup

/-! Parts of graphs. A part holds the nodes of some of the classes, in their order; as it is sealed itself, its
nodes stand above its own classes only. Every set of classes that is closed under children makes up a part. -/
namespace Extraction

variable {α : Type} [Cost α]

namespace EGraph

/-- The graph holds the nodes of the other one whose classes are in `D`, in their order. -/
structure IsPart (h : EGraph α) (D : ClassId → Bool) (g : EGraph α) : Prop where
  nodes : h.nodes = g.nodes.filter fun _ node => D node.eclass

/-- The part that a set of classes makes up which is closed under children, with those roots that are in it. -/
def part (g : EGraph α) (D : ClassId → Bool)
    (closed : ∀ {id node}, g.node? id = some node → D node.eclass = true →
      ∀ c ∈ node.children, D c = true) : EGraph α :=
  let d : Draft α :=
    { g.draft.filterNodes fun _ node => D node.eclass with roots := g.draft.roots.filter fun c => D c }
  have known : ∀ {c}, D c = true → c ∈ g.classes → c ∈ d.classes := by
    intro c inside mem
    obtain ⟨id, node, stored, owner⟩ := mem_classes.1 mem
    refine Draft.mem_classes.2 ⟨(id, node), OrderedMap.mem_filter.2 ⟨mem_of_node? stored, ?_⟩, owner⟩
    rw [owner]
    exact inside
  { draft := d
    classes := d.classes
    classes_eq := rfl
    childrenPresent := by
      intro e mem c child
      obtain ⟨stored, inside⟩ := OrderedMap.mem_filter.1 mem
      exact known (closed (OrderedMap.get?_eq_some_iff.2 stored) inside c child)
        (g.childrenPresent e stored c child)
    rootsPresent := by
      intro r mem
      obtain ⟨root, inside⟩ := List.mem_filter.1 mem
      exact known inside (g.rootsPresent r root) }

theorem part_isPart (g : EGraph α) (D : ClassId → Bool)
    (closed : ∀ {id node}, g.node? id = some node → D node.eclass = true →
      ∀ c ∈ node.children, D c = true) : (g.part D closed).IsPart D g := ⟨rfl⟩

namespace IsPart
variable {g h : EGraph α} {D : ClassId → Bool} (part : h.IsPart D g)
include part

theorem node?_eq_some_iff {id : NodeId} {node : Node α} :
    h.node? id = some node ↔ g.node? id = some node ∧ D node.eclass = true := by
  rw [node?, node?, part.nodes, OrderedMap.get?_eq_some_iff, OrderedMap.get?_eq_some_iff,
    OrderedMap.mem_filter]

/-- Inside, the part stores what the whole graph stores. -/
theorem node?_eq {id : NodeId} (inside : D id.owner = true) : h.node? id = g.node? id := by
  ext node
  rw [part.node?_eq_some_iff, and_iff_left_iff_imp]
  intro stored
  rwa [← owner_of_node? stored]

/-- Nodes of the part stand above classes of the part. -/
theorem closed {id : NodeId} {node : Node α} (stored : g.node? id = some node)
    (inside : D node.eclass = true) {c : ClassId} (child : c ∈ node.children) : D c = true := by
  have known := child_mem_classes (part.node?_eq_some_iff.2 ⟨stored, inside⟩) child
  obtain ⟨_, _, stored', rfl⟩ := mem_classes.1 known
  exact (part.node?_eq_some_iff.1 stored').2

/-- The nodes of the part that are alike in some way, among those of the whole graph. -/
theorem keys_filter (p : NodeId → Node α → Bool) :
    (h.nodes.filter p).keys = (g.nodes.filter p).keys.filter fun id => D id.owner := by
  simp only [part.nodes, OrderedMap.keys, OrderedMap.filter, List.filter_map, List.filter_filter]
  congr 1
  apply List.filter_congr
  intro e mem
  rw [Function.comp_apply, (g.draft.accepted e mem).owner, Bool.and_comm]

theorem parents (c : ClassId) : h.parents c = (g.parents c).filter fun id => D id.owner :=
  part.keys_filter _

/-- Nothing in the part stands above a class outside. -/
theorem parents_outside {c : ClassId} (outside : D c = false) : h.parents c = [] := by
  refine List.eq_nil_iff_forall_not_mem.2 fun id parent => ?_
  obtain ⟨node, stored, child⟩ := mem_parents.1 parent
  obtain ⟨stored', inside⟩ := part.node?_eq_some_iff.1 stored
  rw [part.closed stored' inside child] at outside
  cases outside

theorem classes : h.classes = g.classes.filter D := by
  rw [h.classes_eq, g.classes_eq, Draft.classes, Draft.classes, ← filter_eraseDups]
  congr 1
  show h.nodes.values.map Node.eclass = (g.nodes.values.map Node.eclass).filter D
  simp only [part.nodes, OrderedMap.values, OrderedMap.filter, List.map_map, List.filter_map]
  rfl

end IsPart

end EGraph

end Extraction
