import Extraction.Proofs.Graph.Redundancy
import Mathlib.Data.List.Nodup

/-! The nodes of a graph class by class. Grouping moves nodes across classes only: a class keeps its nodes
in their order, the classes keep theirs, and so a graph that is grouped once stays as it is. -/
namespace Extraction

section Lists
variable {β κ : Type} [DecidableEq κ] {f : β → κ} {ks : List κ} {xs : List β}

/-- The elements of a list kind by kind, in the order in which the kinds are given. -/
def regroup (f : β → κ) (ks : List κ) (xs : List β) : List β :=
  ks.flatMap fun k => xs.filter fun x => f x = k

theorem eraseDups_of_forall_eq {k : κ} (same : ∀ j ∈ ks, j = k) (listed : k ∈ ks) :
    ks.eraseDups = [k] := by
  cases ks with
  | nil => cases listed
  | cons j ks =>
    obtain ⟨rfl, same⟩ := List.forall_mem_cons.1 same
    have none : (ks.filter fun i => !i == j) = [] :=
      List.filter_eq_nil_iff.2 fun i mem => by simp [same i mem]
    rw [List.eraseDups_cons, none, List.eraseDups_nil]

theorem mem_regroup {x : β} : x ∈ regroup f ks xs ↔ f x ∈ ks ∧ x ∈ xs := by
  simp only [regroup, List.mem_flatMap, List.mem_filter, decide_eq_true_eq]
  constructor
  · rintro ⟨k, listed, mem, rfl⟩
    exact ⟨listed, mem⟩
  · rintro ⟨listed, mem⟩
    exact ⟨f x, listed, mem, rfl⟩

/-- Grouping by kinds of which each element has one rearranges a list. -/
theorem regroup_perm (distinct : ks.Nodup) (known : ∀ x ∈ xs, f x ∈ ks) : (regroup f ks xs).Perm xs := by
  induction ks generalizing xs with
  | nil =>
    cases xs with
    | nil => exact .nil
    | cons x xs => cases known x List.mem_cons_self
  | cons k ks ih =>
    obtain ⟨fresh, distinct⟩ := List.nodup_cons.1 distinct
    have known' : ∀ x ∈ xs.filter fun x => !(decide (f x = k)), f x ∈ ks := by
      intro x mem
      obtain ⟨mem, other⟩ := List.mem_filter.1 mem
      exact (List.mem_cons.1 (known x mem)).resolve_left (by simpa using other)
    have others := ih distinct known'
    have same : regroup f ks (xs.filter fun x => !(decide (f x = k))) = regroup f ks xs := by
      unfold regroup
      refine List.flatMap_congr fun j mem => ?_
      rw [List.filter_filter]
      refine List.filter_congr fun x _ => ?_
      have apart : j ≠ k := fun same => fresh (same ▸ mem)
      by_cases own : f x = j <;> simp [own, apart]
    rw [same] at others
    exact (others.append_left _).trans (List.filter_append_perm _ xs)

theorem filter_regroup_eq_ite (distinct : ks.Nodup) (xs : List β) (k : κ) :
    (regroup f ks xs).filter (fun x => f x = k) =
      if k ∈ ks then xs.filter (fun x => f x = k) else [] := by
  induction ks with
  | nil => rfl
  | cons j ks ih =>
    obtain ⟨fresh, distinct⟩ := List.nodup_cons.1 distinct
    have ih := ih distinct
    unfold regroup at ih ⊢
    rw [List.flatMap_cons, List.filter_append, ih, List.filter_filter]
    by_cases same : j = k
    · subst same
      simp [fresh]
    · have none : xs.filter (fun x => decide (f x = k) && decide (f x = j)) = [] := by
        refine List.filter_eq_nil_iff.2 fun x _ => ?_
        simp only [Bool.and_eq_true, decide_eq_true_eq]
        rintro ⟨rfl, own⟩
        exact same own.symm
      simp [none, Ne.symm same]

/-- A kind keeps its elements in their order. -/
theorem filter_regroup (distinct : ks.Nodup) (known : ∀ x ∈ xs, f x ∈ ks) (k : κ) :
    (regroup f ks xs).filter (fun x => f x = k) = xs.filter fun x => f x = k := by
  rw [filter_regroup_eq_ite distinct]
  split
  · rfl
  · rename_i unknown
    refine (List.filter_eq_nil_iff.2 fun x mem own => unknown ?_).symm
    rw [← of_decide_eq_true own]
    exact known x mem

/-- The kinds keep their order, where each has an element. -/
theorem eraseDups_map_regroup (distinct : ks.Nodup) (some : ∀ k ∈ ks, ∃ x ∈ xs, f x = k) :
    ((regroup f ks xs).map f).eraseDups = ks := by
  induction ks with
  | nil => rfl
  | cons k ks ih =>
    obtain ⟨fresh, distinct⟩ := List.nodup_cons.1 distinct
    obtain ⟨⟨x, mem, own⟩, some⟩ := List.forall_mem_cons.1 some
    have own' : ∀ j ∈ (xs.filter fun x => f x = k).map f, j = k := by
      intro j among
      obtain ⟨y, kept, rfl⟩ := List.mem_map.1 among
      exact of_decide_eq_true (List.mem_filter.1 kept).2
    have listed : k ∈ (xs.filter fun x => f x = k).map f :=
      List.mem_map.2 ⟨x, List.mem_filter.2 ⟨mem, by simpa using own⟩, own⟩
    have others : ((regroup f ks xs).map f).removeAll ((xs.filter fun x => f x = k).map f) =
        (regroup f ks xs).map f := by
      refine List.filter_eq_self.2 fun j among => ?_
      obtain ⟨y, grouped, rfl⟩ := List.mem_map.1 among
      have known := (mem_regroup.1 grouped).1
      simp only [Bool.not_eq_true', List.elem_eq_contains, List.contains_eq_mem, decide_eq_false_iff_not]
      exact fun again => fresh (own' _ again ▸ known)
    have ih := ih distinct some
    unfold regroup at *
    rw [List.flatMap_cons, List.map_append, List.eraseDups_append, eraseDups_of_forall_eq own' listed,
      others, ih]
    rfl

end Lists

variable {α : Type} [Cost α]

/-- The draft holds the nodes of a sealed graph class by class, with the roots and the operators. -/
structure Draft.Regroups (d : Draft α) (g : EGraph α) : Prop where
  nodes : d.nodes.toList = regroup (fun e => e.2.eclass) g.classes g.nodes.toList
  roots : d.roots = g.roots
  ops : d.ops = g.ops

theorem EGraph.eclass_mem_classes {g : EGraph α} {e : NodeId × Node α} (mem : e ∈ g.nodes.toList) :
    e.2.eclass ∈ g.classes := by
  rw [g.classes_eq]
  exact Draft.mem_classes.2 ⟨e, mem, rfl⟩

namespace Draft.Regroups
variable {d : Draft α} {g : EGraph α} (regroups : d.Regroups g)
include regroups

theorem perm : d.nodes.toList.Perm g.nodes.toList := by
  rw [regroups.nodes]
  exact regroup_perm g.nodup_classes fun e => EGraph.eclass_mem_classes

theorem classes : d.classes = g.classes := by
  have values : d.nodes.values.map Node.eclass = d.nodes.toList.map fun e => e.2.eclass := by
    rw [OrderedMap.values, List.map_map]
    rfl
  rw [Draft.classes, values, regroups.nodes]
  refine eraseDups_map_regroup g.nodup_classes fun c mem => ?_
  rw [g.classes_eq] at mem
  exact Draft.mem_classes.1 mem

theorem entries (c : ClassId) : (d.nodes.filter fun _ node => node.eclass = c).toList =
    (g.nodes.filter fun _ node => node.eclass = c).toList := by
  simp only [OrderedMap.filter, regroups.nodes]
  exact filter_regroup g.nodup_classes (fun e => EGraph.eclass_mem_classes) c

theorem membersOf (c : ClassId) : d.membersOf c = g.membersOf c :=
  congrArg (List.map Prod.fst) (regroups.entries c)

/-- It seals again. -/
theorem exists_toGraph : ∃ g' : EGraph α, d.toGraph = .ok g' := by
  let g' : EGraph α :=
    { draft := d
      classes := d.classes
      classes_eq := rfl
      childrenPresent := by
        intro e mem
        rw [regroups.classes]
        exact g.childrenPresent e (regroups.perm.mem_iff.1 mem)
      rootsPresent := by
        rw [regroups.classes, regroups.roots]
        exact g.rootsPresent }
  exact ⟨g', toGraph_eq_ok_iff.2 rfl⟩

end Draft.Regroups

end Extraction
