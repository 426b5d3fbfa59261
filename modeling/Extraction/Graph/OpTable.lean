import Extraction.Id

/-! Operator names in the order in which they came in. A node refers to an operator by its position. -/
namespace Extraction

structure OpTable where
  names : List String
  nodup : names.Nodup

namespace OpTable

def empty : OpTable := ⟨[], List.nodup_nil⟩

instance : EmptyCollection OpTable := ⟨empty⟩
instance : Inhabited OpTable := ⟨empty⟩

theorem ext {t u : OpTable} (h : t.names = u.names) : t = u := by
  cases t; cases u; cases h; rfl

def size (t : OpTable) : Nat := t.names.length

def isEmpty (t : OpTable) : Bool := t.names.isEmpty

def append (t : OpTable) (name : String) (fresh : name ∉ t.names) : OpTable where
  names := t.names ++ [name]
  nodup := by
    rw [List.nodup_append]
    refine ⟨t.nodup, by simp, ?_⟩
    intro a ha b hb hab
    rw [List.mem_singleton] at hb
    rw [hab, hb] at ha
    exact fresh ha

def get? (t : OpTable) (name : String) : Option OpId :=
  (t.names.idxOf? name).map fun i => ⟨i.toUInt32⟩

def name? (t : OpTable) (op : OpId) : Option String := t.names[op.value.toNat]?

def insert (t : OpTable) (name : String) : OpTable :=
  if h : name ∈ t.names then t else t.append name h

/-- The position of `name`, which comes in at the end unless it is there. -/
def intern (t : OpTable) (name : String) : OpId × OpTable :=
  (⟨(t.names.idxOf name).toUInt32⟩, t.insert name)

/-- The table of distinct names, or the first name that comes a second time. -/
def ofNames (names : List String) : Except String OpTable :=
  names.foldlM (fun t name => if h : name ∈ t.names then .error name else .ok (t.append name h)) empty

def sameNames (t u : OpTable) : Bool :=
  t.names.all u.names.contains && u.names.all t.names.contains

theorem prefix_insert (t : OpTable) (name : String) : t.names <+: (t.insert name).names := by
  unfold insert
  split
  · exact List.prefix_rfl
  · exact List.prefix_append _ _

/-- A position in the table keeps its name when another name comes in. -/
theorem name?_insert {t : OpTable} {op : OpId} {n : String} (name : String)
    (h : t.name? op = some n) : (t.insert name).name? op = some n := by
  obtain ⟨more, hmore⟩ := t.prefix_insert name
  have bound : op.value.toNat < t.names.length := (List.getElem?_eq_some_iff.1 h).1
  rw [name?, ← hmore, List.getElem?_append_left bound]
  exact h

end OpTable

end Extraction
