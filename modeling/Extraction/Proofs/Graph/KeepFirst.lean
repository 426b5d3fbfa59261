import Extraction.Proofs.Graph.Redundancy

/-! Which nodes are kept when redundant ones are removed: the first of each class and multiset of children.
The removal goes from class to class and groups the nodes of each by signature, which comes to one pass over
all nodes. The first node with a child that dangles is the first of its kind, so a draft seals as before or
fails as before. -/
namespace Extraction

variable {α : Type} [Cost α]

/-- Lists have one signature exactly if one is a rearrangement of the other. -/
theorem signature_eq_iff {classes classes' : List ClassId} :
    signature classes = signature classes' ↔ classes.Perm classes' := by
  refine ⟨perm_of_signature_eq, fun perm => ?_⟩
  rw [signature, signature, distinctClasses_congr fun _ => perm.mem_iff]
  exact List.map_congr_left fun c _ => by rw [perm.count_eq]

omit [Cost α] in
theorem Node.kind_eq_iff {node other : Node α} : node.kind = other.kind ↔
    node.eclass = other.eclass ∧ node.children.Perm other.children := by
  rw [kind, kind, Prod.mk.injEq, signature_eq_iff]

section Groups
variable {κ β ν ε : Type}

namespace OrderedMap
variable [DecidableEq κ]

/-- What is put under a key stands there in its order. -/
theorem getD_foldl_push (f : β → κ) (v : β → ν) (xs : List β) (m : OrderedMap κ (List ν)) (k : κ) :
    ((xs.foldl (fun m x => m.push (f x) (v x)) m).get? k).getD [] =
      (m.get? k).getD [] ++ (xs.filter fun x => f x = k).map v := by
  induction xs generalizing m with
  | nil => simp
  | cons x xs ih =>
    rw [List.foldl_cons, ih, push, get?_insert, List.filter_cons]
    by_cases same : k = f x
    · simp [same]
    · simp [same, Ne.symm same]

theorem mem_flatMap_drop {m : OrderedMap κ (List ν)} {y : ν} :
    y ∈ m.values.flatMap (List.drop 1) ↔ ∃ k, y ∈ ((m.get? k).getD []).drop 1 := by
  simp only [values, List.mem_flatMap, List.mem_map]
  constructor
  · rintro ⟨_, ⟨⟨k, ys⟩, held, rfl⟩, later⟩
    exact ⟨k, by rwa [get?_eq_some_iff.2 held]⟩
  · rintro ⟨k, later⟩
    cases held : m.get? k with
    | none =>
      rw [held] at later
      cases later
    | some ys =>
      rw [held] at later
      exact ⟨ys, ⟨(k, ys), get?_eq_some_iff.1 held, rfl⟩, later⟩

end OrderedMap

/-- Lists that all come out right come out right together. -/
theorem exists_mapM_lists {f : β → Except ε (List ν)} {R : β → ν → Prop} {xs : List β}
    (each : ∀ x ∈ xs, ∃ ys, f x = .ok ys ∧ ∀ y, y ∈ ys ↔ R x y) :
    ∃ yss, xs.mapM f = .ok yss ∧ ∀ y, y ∈ yss.flatten ↔ ∃ x ∈ xs, R x y := by
  induction xs with
  | nil => exact ⟨[], rfl, by simp⟩
  | cons x xs ih =>
    rw [List.forall_mem_cons] at each
    obtain ⟨ys, first, here⟩ := each.1
    obtain ⟨yss, rest, there⟩ := ih each.2
    refine ⟨ys :: yss, ?_, ?_⟩
    · rw [List.mapM_cons, first, rest]
      rfl
    · intro y
      rw [List.flatten_cons, List.mem_append, here, there, List.exists_mem_cons_iff]

/-- A search that comes upon something before each element that a filter takes out finds the same in what is
left. -/
theorem findSome?_filter_of_earlier {p : β → Bool} {f : β → Option ν} {xs : List β}
    (earlier : ∀ before x after, xs = before ++ x :: after → p x = false →
      ∃ y ∈ before, f y = none → f x = none) : (xs.filter p).findSome? f = xs.findSome? f := by
  cases found : xs.findSome? f with
  | none =>
    rw [List.findSome?_eq_none_iff] at found ⊢
    exact fun x mem => found x (List.mem_filter.1 mem).1
  | some y =>
    obtain ⟨before, x, after, split, here, clear⟩ := List.findSome?_eq_some_iff.1 found
    have kept : p x = true := by
      by_contra dropped
      obtain ⟨z, mem, leads⟩ := earlier before x after split (Bool.eq_false_iff.2 dropped)
      cases here.symm.trans (leads (clear z mem))
    refine List.findSome?_eq_some_iff.2 ⟨before.filter p, x, after.filter p, ?_, here, ?_⟩
    · rw [split, List.filter_append, List.filter_cons_of_pos kept]
    · exact fun z mem => clear z (List.mem_filter.1 mem).1

end Groups

section Kinds
variable {entries : List (NodeId × Node α)} {id : NodeId}

/-- The nodes of a kind in their order. -/
def ofKind (entries : List (NodeId × Node α)) (kind : ClassId × List (ClassId × Nat)) : List NodeId :=
  (entries.filter fun e => e.2.kind = kind).map Prod.fst

omit [Cost α] in
theorem ofKind_cons (e : NodeId × Node α) (kind : ClassId × List (ClassId × Nat)) :
    ofKind (e :: entries) kind =
      if e.2.kind = kind then e.1 :: ofKind entries kind else ofKind entries kind := by
  rw [ofKind, List.filter_cons]
  by_cases same : e.2.kind = kind <;> simp [same, ofKind]

omit [Cost α] in
/-- The nodes of a kind are those of the class that have the signature. -/
theorem ofKind_eq (entries : List (NodeId × Node α)) (c : ClassId) (s : List (ClassId × Nat)) :
    ofKind entries (c, s) = ((entries.filter fun e => e.2.eclass = c).filter fun e =>
      signature e.2.children = s).map Prod.fst := by
  rw [ofKind, List.filter_filter]
  congr 2
  funext e
  rw [Bool.eq_iff_iff]
  simp [Node.kind, and_comm]

omit [Cost α] in
/-- The nodes that repeat a kind are all of a kind seen before and all but the first of any other. -/
theorem mem_repeated_iff {seen : List (ClassId × List (ClassId × Nat))} :
    id ∈ repeated seen entries ↔
      ∃ kind, id ∈ if kind ∈ seen then ofKind entries kind else (ofKind entries kind).drop 1 := by
  induction entries generalizing seen with
  | nil => simp [repeated, ofKind]
  | cons e entries ih =>
    simp only [ofKind_cons]
    by_cases again : e.2.kind ∈ seen
    · rw [repeated_cons_of_mem again, List.mem_cons, ih]
      constructor
      · rintro (rfl | ⟨kind, later⟩)
        · exact ⟨e.2.kind, by simp [again]⟩
        · refine ⟨kind, ?_⟩
          by_cases same : e.2.kind = kind
          · subst same
            rw [if_pos again] at later ⊢
            rw [if_pos rfl]
            exact List.mem_cons_of_mem _ later
          · rwa [if_neg same]
      · rintro ⟨kind, later⟩
        by_cases same : e.2.kind = kind
        · subst same
          rw [if_pos again, if_pos rfl, List.mem_cons] at later
          exact later.imp_right fun later => ⟨e.2.kind, by rwa [if_pos again]⟩
        · rw [if_neg same] at later
          exact .inr ⟨kind, later⟩
    · -- The kind is new: from here on it counts as seen, and this node is the one that is not among the rest.
      rw [repeated_cons_of_notMem again, ih]
      refine exists_congr fun kind => ?_
      by_cases same : e.2.kind = kind
      · subst same
        simp [again]
      · simp [same, Ne.symm same]

omit [Cost α] in
/-- A node repeats a kind exactly if the kind was seen before or a node before it has the same. -/
theorem mem_repeated_of_split {seen : List (ClassId × List (ClassId × Nat))}
    {before after : List (NodeId × Node α)} {e : NodeId × Node α}
    (distinct : ((before ++ e :: after).map Prod.fst).Nodup) :
    e.1 ∈ repeated seen (before ++ e :: after) ↔
      e.2.kind ∈ seen ∨ ∃ k ∈ before, k.2.kind = e.2.kind := by
  induction before generalizing seen with
  | nil =>
    have fresh : e.1 ∉ after.map Prod.fst := (List.nodup_cons.1 distinct).1
    by_cases again : e.2.kind ∈ seen
    · simp [repeated_cons_of_mem, again]
    · have later : e.1 ∉ repeated (e.2.kind :: seen) after := fun mem => fresh (mem_of_repeated mem)
      simp [repeated_cons_of_notMem, again, later]
  | cons first before ih =>
    obtain ⟨fresh, distinct⟩ := List.nodup_cons.1 distinct
    have other : e.1 ≠ first.1 := by
      intro same
      apply fresh
      rw [← same]
      exact List.mem_map_of_mem (List.mem_append_right _ List.mem_cons_self)
    rw [List.cons_append, List.exists_mem_cons_iff]
    by_cases again : first.2.kind ∈ seen
    · rw [repeated_cons_of_mem again, List.mem_cons, ih distinct, or_iff_right other]
      constructor
      · exact Or.imp_right .inr
      · rintro (old | same | found)
        · exact .inl old
        · exact .inl (same ▸ again)
        · exact .inr found
    · rw [repeated_cons_of_notMem again, ih distinct, List.mem_cons, eq_comm, or_assoc, or_left_comm]

end Kinds

namespace Draft
variable {d : Draft α}

/-- Grouping nodes that the draft holds does not fail. -/
theorem bySignature_eq {entries : List (NodeId × Node α)} (stored : ∀ e ∈ entries, e ∈ d.nodes.toList) :
    d.bySignature (entries.map Prod.fst) =
      .ok (entries.foldl (fun groups e => groups.push (signature e.2.children) e.1) ∅) := by
  unfold bySignature
  generalize (∅ : OrderedMap (List (ClassId × Nat)) (List NodeId)) = groups
  induction entries generalizing groups with
  | nil => rfl
  | cons e entries ih =>
    rw [List.forall_mem_cons] at stored
    have held : d.node? e.1 = some e.2 := OrderedMap.get?_eq_some_iff.2 stored.1
    rw [List.map_cons, List.foldlM_cons, held]
    exact ih stored.2 _

/-- The surplus of nodes that the draft holds is what comes later than first in one of their groups. -/
theorem exists_surplus {entries : List (NodeId × Node α)} (stored : ∀ e ∈ entries, e ∈ d.nodes.toList) :
    ∃ ids, d.surplus (entries.map Prod.fst) = .ok ids ∧ ∀ id, id ∈ ids ↔
      ∃ s, id ∈ ((entries.filter fun e => signature e.2.children = s).map Prod.fst).drop 1 := by
  unfold surplus
  split
  · rename_i short
    refine ⟨[], rfl, fun id => ⟨nofun, ?_⟩⟩
    rintro ⟨s, later⟩
    have few : ((entries.filter fun e => signature e.2.children = s).map Prod.fst).length ≤ 1 := by
      rw [List.length_map] at short ⊢
      exact Nat.le_trans (List.length_filter_le _ _) (Nat.le_of_lt_succ short)
    rw [List.drop_eq_nil_of_le few] at later
    cases later
  · rw [bySignature_eq stored]
    refine ⟨_, rfl, fun id => ?_⟩
    simp only [OrderedMap.mem_flatMap_drop, OrderedMap.getD_foldl_push]
    rfl

/-- What is left over in the classes is what is redundant. -/
theorem exists_doomed (d : Draft α) :
    ∃ doomed, (d.groups.mapM fun group => d.surplus group.2) = .ok doomed ∧
      ∀ id, id ∈ doomed.flatten ↔ id ∈ d.redundant := by
  have each : ∀ group ∈ d.groups, ∃ ids, d.surplus group.2 = .ok ids ∧ ∀ id, id ∈ ids ↔
      ∃ s, id ∈ (ofKind d.nodes.toList (group.1, s)).drop 1 := by
    intro group mem
    obtain ⟨c, _, rfl⟩ := List.mem_map.1 mem
    have stored : ∀ e ∈ (d.nodes.filter fun _ node => node.eclass = c).toList, e ∈ d.nodes.toList :=
      fun e listed => (OrderedMap.mem_filter.1 listed).1
    obtain ⟨ids, sorted, surplus⟩ := exists_surplus stored
    refine ⟨ids, sorted, fun id => (surplus id).trans (exists_congr fun s => ?_)⟩
    rw [ofKind_eq]
    rfl
  obtain ⟨doomed, sorted, flat⟩ := exists_mapM_lists each
  refine ⟨doomed, sorted, fun id => ?_⟩
  rw [flat, redundant, mem_repeated_iff]
  constructor
  · rintro ⟨group, _, s, later⟩
    exact ⟨(group.1, s), later⟩
  · rintro ⟨⟨c, s⟩, later⟩
    obtain ⟨e, listed, _⟩ := List.mem_map.1 (List.mem_of_mem_drop later)
    obtain ⟨stored, same⟩ := List.mem_filter.1 listed
    have owner : e.2.eclass = c := congrArg Prod.fst (of_decide_eq_true same)
    exact ⟨(c, d.membersOf c), List.mem_map_of_mem (mem_classes.2 ⟨e, stored, owner⟩), s, later⟩

theorem removeNodes_congr {doomed doomed' : List NodeId} (same : ∀ id, id ∈ doomed ↔ id ∈ doomed') :
    d.removeNodes doomed = d.removeNodes doomed' := by
  have kept : (fun (id : NodeId) (_ : Node α) => !doomed.contains id) =
      fun id _ => !doomed'.contains id := by
    funext id _
    rw [Bool.eq_iff_iff]
    simp [same]
  rw [removeNodes, removeNodes, kept]

/-- Going from class to class drops the same nodes as one pass over all of them. -/
theorem removeRedundant_eq (d : Draft α) : d.removeRedundant =
    .ok (d.nodes.size - d.dropRedundant.nodes.size, d.dropRedundant) := by
  obtain ⟨doomed, sorted, same⟩ := d.exists_doomed
  rw [removeRedundant, sorted]
  dsimp only [bind, Except.bind, pure, Except.pure]
  rw [removeNodes_congr same, dropRedundant]

/-- A node is kept exactly if no node before it in its class has its children, in any order. -/
theorem mem_dropRedundant_of_split {before after : List (NodeId × Node α)} {e : NodeId × Node α}
    (split : d.nodes.toList = before ++ e :: after) : e ∈ d.dropRedundant.nodes.toList ↔
      ∀ k ∈ before, k.2.eclass = e.2.eclass → ¬ k.2.children.Perm e.2.children := by
  have stored : e ∈ d.nodes.toList := by
    rw [split]
    exact List.mem_append_right _ List.mem_cons_self
  have distinct := d.nodes.nodup
  rw [split] at distinct
  rw [mem_dropRedundant, redundant, split, mem_repeated_of_split distinct, ← split]
  simp only [Node.kind_eq_iff, List.not_mem_nil, false_or, not_exists, not_and, stored, true_and]

/-- Of each kind, one node is kept. -/
theorem eq_of_kept {k e : NodeId × Node α} (kept : k ∈ d.dropRedundant.nodes.toList)
    (kept' : e ∈ d.dropRedundant.nodes.toList) (same : k.2.kind = e.2.kind) : k = e := by
  obtain ⟨owner, children⟩ := Node.kind_eq_iff.1 same
  obtain ⟨before, after, split⟩ := List.append_of_mem (mem_dropRedundant.1 kept').1
  have among := (mem_dropRedundant.1 kept).1
  rw [split, List.mem_append, List.mem_cons] at among
  obtain earlier | rfl | later := among
  · exact absurd children ((mem_dropRedundant_of_split split).1 kept' k earlier owner)
  · rfl
  · -- The node then stands before the other, which is therefore not kept.
    obtain ⟨between, rest, split'⟩ := List.append_of_mem later
    rw [split', ← List.cons_append, ← List.append_assoc] at split
    have first : e ∈ before ++ e :: between := List.mem_append_right _ List.mem_cons_self
    exact absurd children.symm ((mem_dropRedundant_of_split split).1 kept e first owner.symm)

theorem filterNodes_eq_self {p : NodeId → Node α → Bool}
    (all : ∀ e ∈ d.nodes.toList, p e.1 e.2 = true) : d.filterNodes p = d := by
  obtain ⟨nodes, roots, ops, next, accepted⟩ := d
  have same : nodes.filter p = nodes := OrderedMap.ext (List.filter_eq_self.2 all)
  simp only [filterNodes, same]

/-- What has been kept once is kept. -/
theorem dropRedundant_dropRedundant (d : Draft α) : d.dropRedundant.dropRedundant = d.dropRedundant := by
  have all : ∀ e ∈ d.dropRedundant.nodes.toList, e.1 ∉ d.dropRedundant.redundant := by
    intro e kept
    obtain ⟨before, after, split⟩ := List.append_of_mem kept
    have distinct := d.dropRedundant.nodes.nodup
    rw [split] at distinct
    rw [redundant, split, mem_repeated_of_split distinct]
    rintro (seen | ⟨k, earlier, same⟩)
    · cases seen
    · have among : k ∈ d.dropRedundant.nodes.toList := by
        rw [split]
        exact List.mem_append_left _ earlier
      obtain rfl := eq_of_kept among kept same
      rw [List.map_append, List.map_cons] at distinct
      exact (List.nodup_append.1 distinct).2.2 _ (List.mem_map_of_mem earlier) _ List.mem_cons_self rfl
  refine filterNodes_eq_self fun e kept => ?_
  simpa using all e kept

/-- Before a node that is dropped stands one of its class with its children. -/
theorem exists_earlier_of_dropped {before after : List (NodeId × Node α)} {e : NodeId × Node α}
    (split : d.nodes.toList = before ++ e :: after) (dropped : (!d.redundant.contains e.1) = false) :
    ∃ k ∈ before, k.2.eclass = e.2.eclass ∧ k.2.children.Perm e.2.children := by
  have gone : e ∉ d.dropRedundant.nodes.toList := by
    rw [dropRedundant, removeNodes, filterNodes, OrderedMap.mem_filter]
    exact fun kept => Bool.false_ne_true (dropped.symm.trans kept.2)
  rw [mem_dropRedundant_of_split split] at gone
  push Not at gone
  exact gone

/-- The first node with a child that dangles is kept, since one before it of its kind would have had that child. -/
theorem danglingChild?_dropRedundant (d : Draft α) (classes : List ClassId) :
    d.dropRedundant.danglingChild? classes = d.danglingChild? classes := by
  refine findSome?_filter_of_earlier fun before e after split dropped => ?_
  obtain ⟨k, earlier, _, children⟩ := exists_earlier_of_dropped split dropped
  refine ⟨k, earlier, fun clear => ?_⟩
  rw [Option.map_eq_none_iff, List.find?_eq_none] at clear ⊢
  exact fun c child => clear c (children.mem_iff.2 child)

/-- The first node of each class is kept, so the classes stay in their order. -/
theorem classes_dropRedundant (d : Draft α) : d.dropRedundant.classes = d.classes := by
  rw [classes, classes, OrderedMap.values, OrderedMap.values, List.map_map, List.map_map]
  refine eraseDups_map_filter fun before e after split dropped => ?_
  obtain ⟨k, earlier, owner, _⟩ := exists_earlier_of_dropped split dropped
  exact ⟨k, earlier, owner⟩

/-- What comes of sealing a draft, apart from the graph. -/
theorem map_toGraph (d : Draft α) : (d.toGraph.map fun _ => ()) =
    match d.danglingChild? d.classes with
    | some (node, child) => .error (.danglingChild node child)
    | none =>
      match d.danglingRoot? d.classes with
      | some root => .error (.danglingRoot root)
      | none => .ok () := by
  unfold toGraph
  dsimp only
  split
  · rename_i found
    rw [found]
    rfl
  · rename_i none_dangles
    split
    · rename_i found
      simp only [none_dangles, found]
      rfl
    · rename_i found
      simp only [none_dangles, found]
      rfl

theorem map_toGraph_dropRedundant (d : Draft α) :
    (d.dropRedundant.toGraph.map fun _ => ()) = d.toGraph.map fun _ => () := by
  have classes : ∀ c, d.dropRedundant.classes.contains c = d.classes.contains c := by
    intro c
    rw [Bool.eq_iff_iff, List.contains_iff_mem, List.contains_iff_mem, mem_classes_dropRedundant]
  have children : d.dropRedundant.danglingChild? d.dropRedundant.classes =
      d.danglingChild? d.classes := by
    rw [← d.danglingChild?_dropRedundant]
    unfold danglingChild?
    simp only [classes]
  have roots : d.dropRedundant.danglingRoot? d.dropRedundant.classes = d.danglingRoot? d.classes := by
    unfold danglingRoot?
    simp only [classes]
    rfl
  rw [map_toGraph, map_toGraph, children, roots]

/-- Removing the redundant nodes of a draft succeeds. It keeps, in their order, the nodes before which their class has
none with the same children in any order, and says how many it drops. Roots, operators and next indices stay, and
so do all classes; the draft seals as before, or fails with the same error; and there is nothing left to remove. -/
theorem removeRedundant_keeps_first (d : Draft α) :
    ∃ removed kept, d.removeRedundant = .ok (removed, kept) ∧
      kept.nodes.toList.Sublist d.nodes.toList ∧
      (∀ before e after, d.nodes.toList = before ++ e :: after →
        (e ∈ kept.nodes.toList ↔
          ∀ k ∈ before, k.2.eclass = e.2.eclass → ¬ k.2.children.Perm e.2.children)) ∧
      removed + kept.nodes.size = d.nodes.size ∧
      kept.roots = d.roots ∧ kept.ops = d.ops ∧ kept.nextIndex = d.nextIndex ∧
      (∀ c, c ∈ kept.classes ↔ c ∈ d.classes) ∧
      (kept.toGraph.map fun _ => ()) = (d.toGraph.map fun _ => ()) ∧
      kept.removeRedundant = .ok (0, kept) := by
  have some : d.dropRedundant.nodes.toList.Sublist d.nodes.toList := List.filter_sublist
  refine ⟨_, _, d.removeRedundant_eq, some, fun _ _ _ => mem_dropRedundant_of_split,
    Nat.sub_add_cancel some.length_le, rfl, rfl, rfl, fun _ => mem_classes_dropRedundant,
    d.map_toGraph_dropRedundant, ?_⟩
  rw [removeRedundant_eq, dropRedundant_dropRedundant, Nat.sub_self]

end Draft

end Extraction
