/-! Finite maps that remember the order in which their keys first came in. A key that comes in
again keeps its place and takes the later value. -/
namespace Extraction

structure OrderedMap (κ ν : Type) where
  toList : List (κ × ν)
  nodup : (toList.map Prod.fst).Nodup

namespace OrderedMap
variable {κ ν : Type}

def empty : OrderedMap κ ν := ⟨[], List.nodup_nil⟩

instance : EmptyCollection (OrderedMap κ ν) := ⟨empty⟩
instance : Inhabited (OrderedMap κ ν) := ⟨empty⟩

def keys (m : OrderedMap κ ν) : List κ := m.toList.map Prod.fst

def values (m : OrderedMap κ ν) : List ν := m.toList.map Prod.snd

def size (m : OrderedMap κ ν) : Nat := m.toList.length

def isEmpty (m : OrderedMap κ ν) : Bool := m.toList.isEmpty

theorem ext {m n : OrderedMap κ ν} (h : m.toList = n.toList) : m = n := by
  cases m; cases n; cases h; rfl

def filter (p : κ → ν → Bool) (m : OrderedMap κ ν) : OrderedMap κ ν where
  toList := m.toList.filter fun e => p e.1 e.2
  nodup := m.nodup.sublist (List.filter_sublist.map Prod.fst)

theorem mem_keys_of_mem {m : OrderedMap κ ν} {e : κ × ν} (h : e ∈ m.toList) : e.1 ∈ m.keys :=
  List.mem_map_of_mem h

theorem mem_filter {p : κ → ν → Bool} {m : OrderedMap κ ν} {e : κ × ν} :
    e ∈ (m.filter p).toList ↔ e ∈ m.toList ∧ p e.1 e.2 := List.mem_filter

variable [DecidableEq κ]

def get? (m : OrderedMap κ ν) (k : κ) : Option ν := m.toList.lookup k

def contains (m : OrderedMap κ ν) (k : κ) : Bool := m.keys.contains k

/-- Gives `k` the value `v`, in place if `k` is there and at the end otherwise. -/
def insert (m : OrderedMap κ ν) (k : κ) (v : ν) : OrderedMap κ ν :=
  if h : k ∈ m.keys then
    { toList := m.toList.map fun e => if e.1 = k then (k, v) else e
      nodup := by
        have same : (Prod.fst ∘ fun e : κ × ν => if e.1 = k then (k, v) else e) = Prod.fst := by
          funext e
          by_cases he : e.1 = k <;> simp [he]
        rw [List.map_map, same]
        exact m.nodup }
  else
    { toList := m.toList ++ [(k, v)]
      nodup := by
        rw [List.map_append, List.map_singleton, List.nodup_append]
        refine ⟨m.nodup, by simp, ?_⟩
        intro a ha b hb hab
        rw [List.mem_singleton] at hb
        rw [hab, hb] at ha
        exact h ha }

/-- Puts `v` at the end of the list of `k`. -/
def push (m : OrderedMap κ (List ν)) (k : κ) (v : ν) : OrderedMap κ (List ν) :=
  m.insert k ((m.get? k).getD [] ++ [v])

def ofList (entries : List (κ × ν)) : OrderedMap κ ν :=
  entries.foldl (fun m e => m.insert e.1 e.2) empty

theorem toList_insert_of_notMem {m : OrderedMap κ ν} {k : κ} (v : ν) (h : k ∉ m.keys) :
    (m.insert k v).toList = m.toList ++ [(k, v)] := by
  simp [insert, h]

theorem keys_insert (m : OrderedMap κ ν) (k : κ) (v : ν) :
    (m.insert k v).keys = if k ∈ m.keys then m.keys else m.keys ++ [k] := by
  by_cases h : k ∈ m.keys
  · have same : (Prod.fst ∘ fun e : κ × ν => if e.1 = k then (k, v) else e) = Prod.fst := by
      funext e
      by_cases he : e.1 = k <;> simp [he]
    simp only [insert, h, ↓reduceDIte, if_true]
    simp only [keys, List.map_map, same]
  · simp only [insert, h, ↓reduceDIte, if_false]
    simp only [keys, List.map_append, List.map_cons, List.map_nil]

theorem get?_eq_some_iff {m : OrderedMap κ ν} {k : κ} {v : ν} :
    m.get? k = some v ↔ (k, v) ∈ m.toList := by
  obtain ⟨entries, nodup⟩ := m
  unfold get?
  induction entries with
  | nil => simp
  | cons e entries ih =>
    obtain ⟨k', v'⟩ := e
    simp only [List.map_cons, List.nodup_cons] at nodup
    by_cases h : k = k'
    · subst h
      rw [List.lookup_cons_self, List.mem_cons]
      constructor
      · intro same
        exact .inl (by rw [Option.some.inj same])
      · rintro (same | later)
        · rw [(Prod.mk.inj same).2]
        · exact absurd (List.mem_map_of_mem (f := Prod.fst) later) nodup.1
    · rw [List.lookup_cons, show (k == k') = false from beq_eq_false_iff_ne.2 h, List.mem_cons]
      refine (ih nodup.2).trans ⟨.inr, ?_⟩
      rintro (same | later)
      · exact absurd (Prod.mk.inj same).1 h
      · exact later

theorem toList_insert_of_mem {m : OrderedMap κ ν} {k : κ} (v : ν) (h : k ∈ m.keys) :
    (m.insert k v).toList = m.toList.map fun e => if e.1 = k then (k, v) else e := by
  simp only [insert, h, ↓reduceDIte]

theorem mem_insert {m : OrderedMap κ ν} {k : κ} {v : ν} {e : κ × ν} :
    e ∈ (m.insert k v).toList ↔ e = (k, v) ∨ e.1 ≠ k ∧ e ∈ m.toList := by
  by_cases h : k ∈ m.keys
  · rw [toList_insert_of_mem v h, List.mem_map]
    constructor
    · rintro ⟨d, hd, rfl⟩
      by_cases same : d.1 = k
      · exact .inl (by rw [if_pos same])
      · rw [if_neg same]
        exact .inr ⟨same, hd⟩
    · rintro (rfl | ⟨other, he⟩)
      · obtain ⟨d, hd, same⟩ := List.mem_map.1 h
        exact ⟨d, hd, if_pos same⟩
      · exact ⟨e, he, if_neg other⟩
  · rw [toList_insert_of_notMem v h, List.mem_append, List.mem_singleton]
    constructor
    · rintro (he | rfl)
      · exact .inr ⟨fun same => h (same ▸ mem_keys_of_mem he), he⟩
      · exact .inl rfl
    · rintro (rfl | ⟨_, he⟩)
      · exact .inr rfl
      · exact .inl he

theorem get?_insert (m : OrderedMap κ ν) (k j : κ) (v : ν) :
    (m.insert k v).get? j = if j = k then some v else m.get? j := by
  ext w
  rw [get?_eq_some_iff, mem_insert]
  by_cases same : j = k
  · subst same
    rw [if_pos rfl]
    constructor
    · rintro (eq | ⟨other, _⟩)
      · rw [(Prod.mk.inj eq).2]
      · exact absurd rfl other
    · intro eq
      rw [Option.some.inj eq]
      exact .inl rfl
  · rw [if_neg same, get?_eq_some_iff]
    constructor
    · rintro (eq | ⟨_, hw⟩)
      · exact absurd (Prod.mk.inj eq).1 same
      · exact hw
    · exact fun hw => .inr ⟨same, hw⟩

theorem get?_eq_none_iff {m : OrderedMap κ ν} {k : κ} : m.get? k = none ↔ k ∉ m.keys := by
  rw [Option.eq_none_iff_forall_ne_some]
  constructor
  · intro h hk
    obtain ⟨e, he, rfl⟩ := List.mem_map.1 hk
    exact h e.2 (get?_eq_some_iff.2 he)
  · intro h v hv
    exact h (mem_keys_of_mem (get?_eq_some_iff.1 hv))

theorem mem_keys_iff {m : OrderedMap κ ν} {k : κ} : k ∈ m.keys ↔ (m.get? k).isSome = true := by
  cases held : m.get? k with
  | none => simpa using get?_eq_none_iff.1 held
  | some v => simpa using mem_keys_of_mem (get?_eq_some_iff.1 held)

end OrderedMap

end Extraction
