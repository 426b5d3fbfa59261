import Extraction.OrderedMap
import Mathlib.Data.List.Forall2
import Mathlib.Data.List.Induction
import Std.Data.TreeMap

/-! Ordered maps, lists without repetitions, and partial functions along lists, whose values are there only if
each of them is. -/
namespace Extraction
open Std

theorem get?_insert {κ ν : Type} [Ord κ] [TransOrd κ] [LawfulEqOrd κ] [DecidableEq κ]
    (map : TreeMap κ ν) (k j : κ) (v : ν) :
    (map.insert k v).get? j = if k = j then some v else map.get? j := by
  simp only [TreeMap.get?_eq_getElem?, TreeMap.getElem?_insert, LawfulEqCmp.compare_eq_iff_eq]

theorem getD_eq_get? {κ ν : Type} [Ord κ] [TransOrd κ] (map : TreeMap κ ν) (k : κ) (v : ν) :
    map.getD k v = (map.get? k).getD v := by
  rw [TreeMap.getD_eq_getD_getElem?, TreeMap.get?_eq_getElem?]

namespace OrderedMap
variable {κ ν ω : Type}

def mapValues (f : ν → ω) (m : OrderedMap κ ν) : OrderedMap κ ω where
  toList := m.toList.map fun e => (e.1, f e.2)
  nodup := by
    rw [List.map_map]
    exact m.nodup

theorem get?_mapValues [DecidableEq κ] (f : ν → ω) (m : OrderedMap κ ν) (k : κ) :
    (m.mapValues f).get? k = (m.get? k).map f := by
  ext w
  rw [get?_eq_some_iff, mapValues, List.mem_map, Option.map_eq_some_iff]
  constructor
  · rintro ⟨e, mem, same⟩
    obtain ⟨rfl, rfl⟩ := Prod.mk.inj same
    exact ⟨e.2, get?_eq_some_iff.2 mem, rfl⟩
  · rintro ⟨v, held, rfl⟩
    exact ⟨(k, v), get?_eq_some_iff.1 held, rfl⟩

/-- A key has one entry at most. -/
theorem filter_toList [DecidableEq κ] (m : OrderedMap κ ν) (k : κ) :
    m.toList.filter (fun e => e.1 = k) = ((m.get? k).map fun v => (k, v)).toList := by
  obtain ⟨entries, nodup⟩ := m
  simp only [get?]
  induction entries with
  | nil => rfl
  | cons e entries ih =>
    obtain ⟨j, v⟩ := e
    simp only [List.map_cons, List.nodup_cons] at nodup
    rw [List.filter_cons, List.lookup_cons]
    by_cases same : j = k
    · subst same
      have alone : entries.filter (fun e => e.1 = j) = [] := by
        refine List.filter_eq_nil_iff.2 fun e mem => ?_
        rw [decide_eq_true_eq]
        rintro rfl
        exact nodup.1 (List.mem_map_of_mem mem)
      simp [alone]
    · rw [beq_eq_false_iff_ne.2 (Ne.symm same), if_neg (by simpa using same)]
      exact ih nodup.2

/-- Distinct keys come in one after the other. -/
theorem toList_foldl_insert [DecidableEq κ] {entries : List (κ × ν)} {m : OrderedMap κ ν}
    (distinct : (m.keys ++ entries.map Prod.fst).Nodup) :
    (entries.foldl (fun m e => m.insert e.1 e.2) m).toList = m.toList ++ entries := by
  induction entries generalizing m with
  | nil => exact (List.append_nil _).symm
  | cons e entries ih =>
    have fresh : e.1 ∉ m.keys := fun mem =>
      (List.nodup_append.1 distinct).2.2 _ mem _ List.mem_cons_self rfl
    have keys : (m.insert e.1 e.2).keys ++ entries.map Prod.fst = m.keys ++ (e :: entries).map Prod.fst := by
      rw [keys_insert, if_neg fresh, List.append_assoc]
      rfl
    rw [List.foldl_cons, ih (by rwa [keys]), toList_insert_of_notMem e.2 fresh, List.append_assoc]
    rfl

theorem toList_ofList [DecidableEq κ] {entries : List (κ × ν)} (distinct : (entries.map Prod.fst).Nodup) :
    (ofList entries).toList = entries := toList_foldl_insert distinct

end OrderedMap

theorem nodup_eraseDups {ν : Type} [DecidableEq ν] : ∀ xs : List ν, xs.eraseDups.Nodup
  | [] => List.nodup_nil
  | x :: xs => by
    rw [List.eraseDups_cons, List.nodup_cons]
    constructor
    · intro again
      have kept := (List.mem_filter.1 (List.mem_eraseDups.1 again)).2
      simp at kept
    · exact nodup_eraseDups _
termination_by xs => xs.length
decreasing_by
  have := List.length_filter_le (fun y => !y == x) xs
  rw [List.length_cons]
  omega

theorem filter_eraseDups {κ : Type} [DecidableEq κ] (p : κ → Bool) :
    ∀ xs : List κ, (xs.filter p).eraseDups = xs.eraseDups.filter p
  | [] => rfl
  | x :: xs => by
    have swap : (xs.filter p).filter (fun y => !y == x) = (xs.filter fun y => !y == x).filter p := by
      rw [List.filter_filter, List.filter_filter]
      exact List.filter_congr fun y _ => Bool.and_comm _ _
    have others := filter_eraseDups p (xs.filter fun y => !y == x)
    rw [List.eraseDups_cons, List.filter_cons, List.filter_cons]
    split
    · rw [List.eraseDups_cons, swap, others]
    · rename_i out
      have apart : (xs.filter p).filter (fun y => !y == x) = xs.filter p := by
        refine List.filter_eq_self.2 fun y mem => ?_
        rw [Bool.not_eq_true', beq_eq_false_iff_ne]
        rintro rfl
        exact out (List.mem_filter.1 mem).2
      rw [← others, ← swap, apart]
termination_by xs => xs.length
decreasing_by
  have := List.length_filter_le (fun y => !y == x) xs
  rw [List.length_cons]
  omega

theorem eraseDups_concat {ν : Type} [DecidableEq ν] (xs : List ν) (x : ν) :
    (xs ++ [x]).eraseDups = if x ∈ xs then xs.eraseDups else xs.eraseDups ++ [x] := by
  rw [List.eraseDups_append]
  by_cases again : x ∈ xs
  · simp [List.removeAll, again]
  · simp [List.removeAll, again, List.eraseDups_cons]

/-- The values of a function, each once and in the order in which they first come, do not change by leaving out
what has the value of something before it. -/
theorem eraseDups_map_filter {β ν : Type} [DecidableEq ν] {p : β → Bool} {f : β → ν} {xs : List β}
    (earlier : ∀ before x after, xs = before ++ x :: after → p x = false → ∃ y ∈ before, f y = f x) :
    ((xs.filter p).map f).eraseDups = (xs.map f).eraseDups := by
  induction xs using List.reverseRecOn with
  | nil => rfl
  | append_singleton xs x ih =>
    have same := ih fun before y after split =>
      earlier before y (after ++ [x]) (by rw [split, List.append_assoc, List.cons_append])
    have members : f x ∈ (xs.filter p).map f ↔ f x ∈ xs.map f := by
      rw [← List.mem_eraseDups, same, List.mem_eraseDups]
    rw [List.map_append, List.map_singleton, eraseDups_concat]
    cases kept : p x with
    | true =>
      rw [List.filter_append, List.filter_singleton, kept, cond_true, List.map_append,
        List.map_singleton, eraseDups_concat, same]
      simp only [members]
    | false =>
      obtain ⟨y, mem, value⟩ := earlier xs x [] rfl kept
      rw [List.filter_append, List.filter_singleton, kept, cond_false, List.append_nil, same,
        if_pos (List.mem_map.2 ⟨y, mem, value⟩)]

theorem eq_ok_of_toOption {ε ν : Type} {x : Except ε ν} {v : ν} (h : x.toOption = some v) : x = .ok v := by
  cases x with
  | ok w =>
    obtain rfl := Option.some.inj h
    rfl
  | error e => cases h

theorem toOption_eq_some_iff {ε ν : Type} {x : Except ε ν} {v : ν} : x.toOption = some v ↔ x = .ok v := by
  constructor
  · exact eq_ok_of_toOption
  · rintro rfl
    rfl

theorem ok_get_toOption {ε ν : Type} {x : Except ε ν} (h : x.toOption.isSome) :
    x = .ok (x.toOption.get h) := eq_ok_of_toOption (Option.some_get h).symm

theorem exists_of_bind_eq_ok {β ν ε : Type} {m : Except ε β} {k : β → Except ε ν} {v : ν}
    (ok : m >>= k = .ok v) : ∃ x, m = .ok x ∧ k x = .ok v := by
  cases m with
  | error e => cases ok
  | ok x => exact ⟨x, rfl, ok⟩

theorem exists_of_map_eq_ok {β ν ε : Type} {m : Except ε β} {f : β → ν} {v : ν}
    (ok : m.map f = .ok v) : ∃ x, m = .ok x ∧ f x = v := by
  cases m with
  | error e => cases ok
  | ok x => exact ⟨x, rfl, Except.ok.inj ok⟩

theorem mapM_map_eq_some {β κ ν : Type} {f : κ → Option ν} {g : β → κ} {h : β → ν} {xs : List β}
    (each : ∀ x ∈ xs, f (g x) = some (h x)) : (xs.map g).mapM f = some (xs.map h) := by
  induction xs with
  | nil => rfl
  | cons x xs ih =>
    obtain ⟨first, others⟩ := List.forall_mem_cons.1 each
    simp [first, ih others]

variable {κ ν ν' : Type} {f f' : κ → Option ν}

theorem mapM_eq_some_iff {xs : List κ} {ys : List ν} :
    xs.mapM f = some ys ↔ List.Forall₂ (fun x y => f x = some y) xs ys := by
  induction xs generalizing ys with
  | nil => cases ys <;> simp
  | cons x xs ih =>
    simp only [List.mapM_cons, Option.bind_eq_bind, Option.bind_eq_some_iff, Option.pure_def,
      Option.some.injEq, ih, List.forall₂_cons_left_iff]
    constructor
    · rintro ⟨y, head, ys', tail, rfl⟩
      exact ⟨y, ys', head, tail, rfl⟩
    · rintro ⟨y, ys', head, tail, rfl⟩
      exact ⟨y, head, ys', tail, rfl⟩

theorem exists_forall₂_iff {R : κ → ν → Prop} {xs : List κ} :
    (∃ ys, List.Forall₂ R xs ys) ↔ ∀ x ∈ xs, ∃ y, R x y := by
  induction xs with
  | nil => exact ⟨fun _ => List.forall_mem_nil _, fun _ => ⟨[], .nil⟩⟩
  | cons x xs ih =>
    rw [List.forall_mem_cons, ← ih]
    constructor
    · rintro ⟨_, _ | ⟨head, tail⟩⟩
      exact ⟨⟨_, head⟩, _, tail⟩
    · rintro ⟨⟨y, head⟩, ys, tail⟩
      exact ⟨y :: ys, .cons head tail⟩

theorem exists_mapM {xs : List κ} (defined : ∀ x ∈ xs, ∃ y, f x = some y) :
    ∃ ys, xs.mapM f = some ys := by
  simp only [mapM_eq_some_iff]
  exact exists_forall₂_iff.2 defined

theorem mapM_congr {xs : List κ} (h : ∀ x ∈ xs, f x = f' x) : xs.mapM f = xs.mapM f' := by
  induction xs with
  | nil => rfl
  | cons x xs ih =>
    rw [List.mapM_cons, List.mapM_cons, h x List.mem_cons_self,
      ih fun y hy => h y (List.mem_cons_of_mem x hy)]

/-- Values along a list are related where they are related at each element. -/
theorem forall₂_of_mapM {R : ν → ν' → Prop} {f' : κ → Option ν'} {xs : List κ} {ys : List ν}
    {ys' : List ν'} (h : xs.mapM f = some ys) (h' : xs.mapM f' = some ys')
    (related : ∀ x ∈ xs, ∀ y y', f x = some y → f' x = some y' → R y y') :
    List.Forall₂ R ys ys' := by
  rw [mapM_eq_some_iff] at h h'
  induction h generalizing ys' with
  | nil => cases h'; exact .nil
  | cons head _ ih =>
    cases h' with
    | cons head' tail' =>
      exact .cons (related _ List.mem_cons_self _ _ head head')
        (ih tail' fun x hx => related x (List.mem_cons_of_mem _ hx))

/-- What a function gives along a list where it follows another one. -/
theorem mapM_map_of_mapM {f' : κ → Option ν'} {k : ν → ν'} {xs : List κ} {ys : List ν}
    (h : xs.mapM f = some ys) (follows : ∀ x ∈ xs, ∀ y, f x = some y → f' x = some (k y)) :
    xs.mapM f' = some (ys.map k) := by
  rw [mapM_eq_some_iff] at *
  induction h with
  | nil => exact .nil
  | cons head _ ih =>
    exact .cons (follows _ List.mem_cons_self _ head)
      (ih fun x hx => follows x (List.mem_cons_of_mem _ hx))

theorem exists_of_mem_mapM {xs : List κ} {ys : List ν} (h : xs.mapM f = some ys) {y : ν}
    (hy : y ∈ ys) : ∃ x ∈ xs, f x = some y := by
  rw [mapM_eq_some_iff] at h
  induction h with
  | nil => cases hy
  | cons head _ ih =>
    obtain rfl | later := List.mem_cons.1 hy
    · exact ⟨_, List.mem_cons_self, head⟩
    · obtain ⟨x, hx, value⟩ := ih later
      exact ⟨x, List.mem_cons_of_mem _ hx, value⟩

theorem forall_of_mapM {P : ν → Prop} {xs : List κ} {ys : List ν} (h : xs.mapM f = some ys)
    (each : ∀ x y, f x = some y → P y) : ∀ y ∈ ys, P y := by
  intro y hy
  obtain ⟨x, _, value⟩ := exists_of_mem_mapM h hy
  exact each x y value

theorem mem_mapM {xs : List κ} {ys : List ν} (h : xs.mapM f = some ys) {x : κ} (hx : x ∈ xs) :
    ∃ y ∈ ys, f x = some y := by
  rw [mapM_eq_some_iff] at h
  induction h with
  | nil => cases hx
  | cons head _ ih =>
    obtain rfl | later := List.mem_cons.1 hx
    · exact ⟨_, List.mem_cons_self, head⟩
    · obtain ⟨y, hy, value⟩ := ih later
      exact ⟨y, List.mem_cons_of_mem _ hy, value⟩

theorem filterMap_of_mapM {xs : List κ} {ys : List ν} (h : xs.mapM f = some ys) :
    xs.filterMap f = ys := by
  rw [mapM_eq_some_iff] at h
  induction h with
  | nil => rfl
  | cons head _ ih => rw [List.filterMap_cons, head, ih]

theorem map_getD_of_mapM {xs : List κ} {ys : List ν} (h : xs.mapM f = some ys) (d : ν) :
    xs.map (fun x => (f x).getD d) = ys := by
  rw [mapM_eq_some_iff] at h
  induction h with
  | nil => rfl
  | cons head _ ih => rw [List.map_cons, head, ih, Option.getD_some]

/-- Values along two arrangements of a list are arrangements of each other. -/
theorem perm_of_mapM {xs xs' : List κ} {ys ys' : List ν} (same : xs.Perm xs') (h : xs.mapM f = some ys)
    (h' : xs'.mapM f = some ys') : ys.Perm ys' := by
  rw [← filterMap_of_mapM h, ← filterMap_of_mapM h']
  exact same.filterMap f

end Extraction
