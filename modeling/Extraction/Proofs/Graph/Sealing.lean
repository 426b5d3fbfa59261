import Extraction.Proofs.Graph.KeepFirst

/-! Sealing a draft. The classes of a sealed graph are what one pass over the nodes sorts them into: they stand
in the order of their first nodes and share the nodes out among them. A draft seals if each class that a child or
a root refers to has a node; otherwise the first reference that dangles is named, children before roots. -/
namespace Extraction

section Groups
variable {β κ ν : Type} [DecidableEq κ]

theorem findIdx_concat_of_mem {f : β → κ} {xs : List β} {k : κ} (x : β) (mem : k ∈ xs.map f) :
    (xs ++ [x]).findIdx (fun y => f y = k) = xs.findIdx fun y => f y = k := by
  obtain ⟨y, listed, value⟩ := List.mem_map.1 mem
  have found : xs.findIdx (fun y => f y = k) < xs.length :=
    List.findIdx_lt_length_of_exists ⟨y, listed, by simpa using value⟩
  rw [List.findIdx_append, if_pos found]

/-- The values of a function, each once, stand in the order of the first elements that have them. -/
theorem pairwise_eraseDups_map (f : β → κ) (xs : List β) : (xs.map f).eraseDups.Pairwise fun k j =>
    xs.findIdx (fun x => f x = k) < xs.findIdx fun x => f x = j := by
  induction xs using List.reverseRecOn with
  | nil => exact .nil
  | append_singleton xs x ih =>
    have old : (xs.map f).eraseDups.Pairwise fun k j =>
        (xs ++ [x]).findIdx (fun y => f y = k) < (xs ++ [x]).findIdx fun y => f y = j := by
      refine ih.imp_of_mem fun {k j} among among' less => ?_
      rw [findIdx_concat_of_mem x (List.mem_eraseDups.1 among),
        findIdx_concat_of_mem x (List.mem_eraseDups.1 among')]
      exact less
    rw [List.map_append, List.map_singleton, eraseDups_concat]
    split
    · exact old
    · rename_i new
      refine List.pairwise_append.2 ⟨old, List.pairwise_singleton _ _, ?_⟩
      intro k among j last
      obtain rfl := List.mem_singleton.1 last
      have earlier : k ∈ xs.map f := List.mem_eraseDups.1 among
      obtain ⟨y, listed, value⟩ := List.mem_map.1 earlier
      have found : xs.findIdx (fun y => f y = k) < xs.length :=
        List.findIdx_lt_length_of_exists ⟨y, listed, by simpa using value⟩
      have nowhere : xs.findIdx (fun y => f y = f x) = xs.length := by
        refine List.findIdx_eq_length.2 fun z mem => ?_
        rw [decide_eq_false_iff_not]
        exact fun same => new (List.mem_map.2 ⟨z, mem, same⟩)
      rw [findIdx_concat_of_mem x earlier, List.findIdx_append, nowhere, if_neg (Nat.lt_irrefl _)]
      exact Nat.lt_of_lt_of_le found (Nat.le_add_left _ _)

namespace OrderedMap

theorem keys_foldl_push (f : β → κ) (v : β → ν) (xs : List β) :
    (xs.foldl (fun m x => m.push (f x) (v x)) (∅ : OrderedMap κ (List ν))).keys =
      (xs.map f).eraseDups := by
  induction xs using List.reverseRecOn with
  | nil => rfl
  | append_singleton xs x ih =>
    rw [List.foldl_append, List.foldl_cons, List.foldl_nil, push, keys_insert, ih, List.map_append,
      List.map_singleton, eraseDups_concat]
    simp only [List.mem_eraseDups]

theorem toList_eq_map_keys (m : OrderedMap κ (List ν)) :
    m.toList = m.keys.map fun k => (k, (m.get? k).getD []) := by
  have each : ∀ e ∈ m.toList, (e.1, (m.get? e.1).getD []) = e := by
    intro e mem
    rw [get?_eq_some_iff.2 mem]
    rfl
  rw [keys, List.map_map]
  exact ((List.map_congr_left each).trans (List.map_id' _)).symm

/-- One pass that puts each element under its key makes the groups of the keys, in the order in which the keys
first come. -/
theorem toList_foldl_push (f : β → κ) (v : β → ν) (xs : List β) :
    (xs.foldl (fun m x => m.push (f x) (v x)) (∅ : OrderedMap κ (List ν))).toList =
      (xs.map f).eraseDups.map fun k => (k, (xs.filter fun x => f x = k).map v) := by
  rw [toList_eq_map_keys, keys_foldl_push]
  refine List.map_congr_left fun k _ => ?_
  rw [getD_foldl_push]
  rfl

end OrderedMap

end Groups

variable {α : Type} [Cost α]

namespace Draft
variable {d : Draft α}

/-- A node of the class is stored. -/
def Populates (d : Draft α) (c : ClassId) : Prop := ∃ e ∈ d.nodes.toList, e.2.eclass = c

/-- Every child of the node is a class with nodes. -/
def Rests (d : Draft α) (node : Node α) : Prop := ∀ c ∈ node.children, d.Populates c

/-- The position of the first node of a class. -/
def firstPlace (d : Draft α) (c : ClassId) : Nat := d.nodes.toList.findIdx fun e => e.2.eclass = c

/-- The nodes sorted by class in one pass. -/
def sorted (d : Draft α) : OrderedMap ClassId (List NodeId) :=
  d.nodes.toList.foldl (fun groups e => groups.push e.2.eclass e.1) ∅

theorem classes_eq_eraseDups (d : Draft α) :
    d.classes = (d.nodes.toList.map fun e => e.2.eclass).eraseDups := by
  rw [classes, OrderedMap.values, List.map_map]
  rfl

theorem toList_sorted (d : Draft α) : d.sorted.toList = d.groups := by
  rw [sorted, OrderedMap.toList_foldl_push, groups, classes_eq_eraseDups]
  rfl

theorem pairwise_classes (d : Draft α) :
    d.classes.Pairwise fun c c' => d.firstPlace c < d.firstPlace c' := by
  rw [classes_eq_eraseDups]
  exact pairwise_eraseDups_map _ _

/-- What is wrong with a draft that does not seal: the first child that dangles of the first node with such a
child, or if there is none, the first root that dangles. -/
inductive Dangles (d : Draft α) : GraphError α → Prop
  | child {before after : List (NodeId × Node α)} {id : NodeId} {node : Node α}
      {known more : List ClassId} {c : ClassId} (stored : d.nodes.toList = before ++ (id, node) :: after)
      (clear : ∀ e ∈ before, d.Rests e.2) (children : node.children = known ++ c :: more)
      (first : ∀ c' ∈ known, d.Populates c') (missing : ¬ d.Populates c) :
      Dangles d (.danglingChild id c)
  | root {known more : List ClassId} {c : ClassId} (clear : ∀ e ∈ d.nodes.toList, d.Rests e.2)
      (roots : d.roots = known ++ c :: more) (first : ∀ c' ∈ known, d.Populates c')
      (missing : ¬ d.Populates c) : Dangles d (.danglingRoot c)

theorem not_contains_iff {c : ClassId} : (!d.classes.contains c) = true ↔ ¬ d.Populates c := by
  rw [Bool.not_eq_true', ← Bool.not_eq_true, List.contains_iff_mem, mem_classes]
  rfl

theorem find?_missing_eq_some {cs : List ClassId} {c : ClassId} :
    (cs.find? fun c => !d.classes.contains c) = some c ↔
      ∃ known more, cs = known ++ c :: more ∧ (∀ c' ∈ known, d.Populates c') ∧ ¬ d.Populates c := by
  rw [List.find?_eq_some_iff_append, not_contains_iff]
  constructor
  · rintro ⟨missing, known, more, rfl, first⟩
    refine ⟨known, more, rfl, fun c' mem => ?_, missing⟩
    have known := first c' mem
    rwa [Bool.not_eq_true', ← Bool.not_eq_true, not_contains_iff, not_not] at known
  · rintro ⟨known, more, rfl, first, missing⟩
    refine ⟨missing, known, more, rfl, fun c' mem => ?_⟩
    rw [Bool.not_eq_true', ← Bool.not_eq_true, not_contains_iff, not_not]
    exact first c' mem

theorem find?_missing_eq_none {cs : List ClassId} :
    (cs.find? fun c => !d.classes.contains c) = none ↔ ∀ c ∈ cs, d.Populates c := by
  rw [List.find?_eq_none]
  exact forall₂_congr fun c _ => by rw [not_contains_iff, not_not]

theorem danglingChild?_eq_some {id : NodeId} {c : ClassId} :
    d.danglingChild? d.classes = some (id, c) ↔
      ∃ before after node known more, d.nodes.toList = before ++ (id, node) :: after ∧
        (∀ e ∈ before, d.Rests e.2) ∧ node.children = known ++ c :: more ∧
        (∀ c' ∈ known, d.Populates c') ∧ ¬ d.Populates c := by
  rw [danglingChild?, List.findSome?_eq_some_iff]
  simp only [Option.map_eq_some_iff, Option.map_eq_none_iff, find?_missing_eq_some,
    find?_missing_eq_none, Prod.mk.injEq]
  constructor
  · rintro ⟨before, ⟨_, node⟩, after, stored, ⟨_, ⟨known, more, children, first, missing⟩, rfl, rfl⟩, clear⟩
    exact ⟨before, after, node, known, more, stored, clear, children, first, missing⟩
  · rintro ⟨before, after, node, known, more, stored, clear, children, first, missing⟩
    exact ⟨before, (id, node), after, stored, ⟨c, ⟨known, more, children, first, missing⟩, rfl, rfl⟩, clear⟩

theorem danglingChild?_eq_none : d.danglingChild? d.classes = none ↔
    ∀ e ∈ d.nodes.toList, d.Rests e.2 := by
  rw [danglingChild?, List.findSome?_eq_none_iff]
  simp only [Option.map_eq_none_iff, find?_missing_eq_none]
  rfl

/-- A draft fails to seal exactly with what is wrong with it. -/
theorem toGraph_eq_error_iff {error : GraphError α} : d.toGraph = .error error ↔ d.Dangles error := by
  have outcome := d.map_toGraph
  constructor
  · intro failed
    rw [failed] at outcome
    split at outcome
    · rename_i id c found
      obtain rfl := Except.error.inj outcome
      obtain ⟨_, _, _, _, _, stored, clear, children, first, missing⟩ := danglingChild?_eq_some.1 found
      exact .child stored clear children first missing
    · rename_i none_dangles
      split at outcome
      · rename_i found
        obtain rfl := Except.error.inj outcome
        obtain ⟨_, _, roots, first, missing⟩ := find?_missing_eq_some.1 found
        exact .root (danglingChild?_eq_none.1 none_dangles) roots first missing
      · cases outcome
  · intro dangles
    have failed : (d.toGraph.map fun _ => ()) = .error error := by
      rw [outcome]
      cases dangles with
      | child stored clear children first missing =>
        rw [danglingChild?_eq_some.2 ⟨_, _, _, _, _, stored, clear, children, first, missing⟩]
      | root clear roots first missing =>
        have found : d.danglingRoot? d.classes = some _ :=
          find?_missing_eq_some.2 ⟨_, _, roots, first, missing⟩
        rw [danglingChild?_eq_none.2 clear, found]
    cases sealed : d.toGraph with
    | ok g =>
      rw [sealed] at failed
      cases failed
    | error other =>
      rw [sealed] at failed
      rw [Except.error.inj failed]

end Draft

/-- How a sealed graph holds the nodes of a draft: each class once, in the order of the first nodes, with its nodes in
storage order, so that every node is found in the one class that has it. -/
structure EGraph.Sorts (g : EGraph α) (d : Draft α) : Prop where
  reopened : g.reopen = d
  onePass : d.sorted.toList = g.classes.map fun c => (c, g.membersOf c)
  distinct : g.classes.Nodup
  inOrder : g.classes.Pairwise fun c c' => d.firstPlace c < d.firstPlace c'
  populated : ∀ c, c ∈ g.classes ↔ d.Populates c
  members : ∀ c ∈ g.classes,
    g.members? c = some ((d.nodes.toList.filter fun e => e.2.eclass = c).map Prod.fst)
  apart : ∀ e ∈ d.nodes.toList, ∃! c, ∃ ids, g.members? c = some ids ∧ e.1 ∈ ids
  found : ∀ e ∈ d.nodes.toList, ∃ ids, (g.classOf? e.1).bind g.members? = some ids ∧ e.1 ∈ ids
  children : ∀ e ∈ d.nodes.toList, ∀ c ∈ e.2.children, c ∈ g.classes
  roots : ∀ r ∈ d.roots, r ∈ g.classes

namespace EGraph

theorem members?_of_mem {g : EGraph α} {c : ClassId} (known : c ∈ g.classes) :
    g.members? c = some (g.membersOf c) := if_pos (by simpa [hasClass] using known)

theorem members?_eq_some_iff {g : EGraph α} {c : ClassId} {ids : List NodeId} :
    g.members? c = some ids ↔ c ∈ g.classes ∧ g.membersOf c = ids := by
  by_cases known : c ∈ g.classes
  · simp [members?_of_mem known, known]
  · have absent : g.members? c = none := if_neg (by simpa [hasClass] using known)
    simp [absent, known]

theorem mem_members?_iff {g : EGraph α} {c : ClassId} {e : NodeId × Node α} (stored : e ∈ g.nodes.toList) :
    (∃ ids, g.members? c = some ids ∧ e.1 ∈ ids) ↔ c = e.2.eclass := by
  have held : g.node? e.1 = some e.2 := OrderedMap.get?_eq_some_iff.2 stored
  simp only [members?_eq_some_iff, mem_classes]
  constructor
  · rintro ⟨_, ⟨_, rfl⟩, mem⟩
    obtain ⟨node, held', owner⟩ := mem_membersOf.1 mem
    obtain rfl := Option.some.inj (held.symm.trans held')
    exact owner.symm
  · rintro rfl
    exact ⟨_, ⟨⟨e.1, e.2, held, rfl⟩, rfl⟩, mem_membersOf.2 ⟨e.2, held, rfl⟩⟩

theorem sorts_draft (g : EGraph α) : g.Sorts g.draft where
  reopened := rfl
  onePass := by
    rw [Draft.toList_sorted, Draft.groups, ← g.classes_eq]
    rfl
  distinct := g.nodup_classes
  inOrder := by
    rw [g.classes_eq]
    exact g.draft.pairwise_classes
  populated := fun c => by
    rw [g.classes_eq, Draft.mem_classes]
    rfl
  members := fun c known => members?_of_mem known
  apart := fun e stored => ⟨e.2.eclass, (mem_members?_iff stored).2 rfl,
    fun _ holds => (mem_members?_iff stored).1 holds⟩
  found := fun e stored => by
    have held : g.node? e.1 = some e.2 := OrderedMap.get?_eq_some_iff.2 stored
    rw [classOf?, held]
    exact (mem_members?_iff stored).2 rfl
  children := g.childrenPresent
  roots := g.rootsPresent

end EGraph

/-- A draft seals exactly if each class that a child or a root refers to has a node. The graph then sorts the nodes of
the draft, which it gives back when it is opened again. A draft that does not seal fails with the first child that
dangles of the first node that has one, or with the first root that dangles if no child does. -/
theorem Draft.seals_or_dangles (d : Draft α) :
    ((∃ g, d.toGraph = .ok g) ↔
      (∀ e ∈ d.nodes.toList, ∀ c ∈ e.2.children, d.Populates c) ∧ ∀ r ∈ d.roots, d.Populates r) ∧
    (∀ g, d.toGraph = .ok g → g.Sorts d) ∧
    ∀ error, d.toGraph = .error error ↔ d.Dangles error := by
  have sorts : ∀ g, d.toGraph = .ok g → g.Sorts d := by
    intro g sealed
    obtain rfl := toGraph_eq_ok_iff.1 sealed
    exact g.sorts_draft
  refine ⟨⟨?_, ?_⟩, sorts, fun _ => toGraph_eq_error_iff⟩
  · rintro ⟨g, sealed⟩
    have sorted := sorts g sealed
    exact ⟨fun e stored c child => (sorted.populated c).1 (sorted.children e stored c child),
      fun r root => (sorted.populated r).1 (sorted.roots r root)⟩
  · rintro ⟨children, roots⟩
    cases outcome : d.toGraph with
    | ok g => exact ⟨g, rfl⟩
    | error error =>
      cases toGraph_eq_error_iff.1 outcome with
      | @child before after id node known more c stored _ within _ missing =>
        have mem : (id, node) ∈ d.nodes.toList := stored ▸ List.mem_append_right _ List.mem_cons_self
        have child : c ∈ node.children := within ▸ List.mem_append_right _ List.mem_cons_self
        exact absurd (children _ mem c child) missing
      | @root known more c _ within _ missing =>
        have root : c ∈ d.roots := within ▸ List.mem_append_right _ List.mem_cons_self
        exact absurd (roots c root) missing

end Extraction
