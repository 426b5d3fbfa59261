import Std.Data.TreeSet

/-! Worklists: first in, first out, and nothing queued twice. A set of the queued elements stands beside
the queue, so that a repeated element is seen at once. -/
namespace Extraction
open Std

structure Worklist (κ : Type) [Ord κ] where
  items : List κ
  members : TreeSet κ

namespace Worklist
variable {κ : Type} [Ord κ]

def empty : Worklist κ := ⟨[], ∅⟩

instance : EmptyCollection (Worklist κ) := ⟨empty⟩
instance : Inhabited (Worklist κ) := ⟨empty⟩

def size (w : Worklist κ) : Nat := w.items.length

def isEmpty (w : Worklist κ) : Bool := w.items.isEmpty

def insert (w : Worklist κ) (x : κ) : Worklist κ :=
  if w.members.contains x then w else ⟨w.items ++ [x], w.members.insert x⟩

def insertMany (w : Worklist κ) (xs : List κ) : Worklist κ := xs.foldl insert w

def pop (w : Worklist κ) : Option κ × Worklist κ :=
  match w.items with
  | [] => (none, w)
  | x :: rest => (some x, ⟨rest, w.members.erase x⟩)

/-- Takes the first `k` elements out, or all if there are fewer. -/
def popBatch (w : Worklist κ) (k : Nat) : List κ × Worklist κ :=
  let batch := w.items.take k
  (batch, ⟨w.items.drop k, batch.foldl TreeSet.erase w.members⟩)

/-- The set of a worklist holds what its queue holds, and the queue holds nothing twice. -/
structure Sound (w : Worklist κ) : Prop where
  nodup : w.items.Nodup
  mem_members : ∀ x, x ∈ w.members ↔ x ∈ w.items

theorem sound_empty : (empty : Worklist κ).Sound where
  nodup := List.nodup_nil
  mem_members := by
    intro x
    simp [empty]

theorem items_insert_of_notMem {w : Worklist κ} (h : w.Sound) {x : κ} (new : x ∉ w.items) :
    (w.insert x).items = w.items ++ [x] := by
  rw [insert, if_neg]
  rw [TreeSet.contains_iff_mem, h.mem_members]
  exact new

theorem insert_of_mem {w : Worklist κ} (h : w.Sound) {x : κ} (queued : x ∈ w.items) :
    w.insert x = w := by
  rw [insert, if_pos]
  rw [TreeSet.contains_iff_mem, h.mem_members]
  exact queued

theorem popBatch_fst (w : Worklist κ) (k : Nat) : (w.popBatch k).1 = w.items.take k := rfl

theorem items_popBatch (w : Worklist κ) (k : Nat) : (w.popBatch k).2.items = w.items.drop k := rfl

theorem pop_fst (w : Worklist κ) : w.pop.1 = w.items.head? := by
  unfold pop
  split <;> rename_i h <;> rw [h] <;> rfl

theorem items_pop (w : Worklist κ) : w.pop.2.items = w.items.tail := by
  unfold pop
  split <;> rename_i h <;> rw [h] <;> simp_all

theorem mem_insert {w : Worklist κ} (h : w.Sound) {x y : κ} :
    y ∈ (w.insert x).items ↔ y ∈ w.items ∨ y = x := by
  by_cases queued : x ∈ w.items
  · rw [insert_of_mem h queued]
    exact ⟨.inl, fun either => either.elim id fun same => same ▸ queued⟩
  · rw [items_insert_of_notMem h queued, List.mem_append, List.mem_singleton]

theorem prefix_insert {w : Worklist κ} (h : w.Sound) (x : κ) : w.items <+: (w.insert x).items := by
  by_cases queued : x ∈ w.items
  · simp only [insert_of_mem h queued, List.prefix_rfl]
  · rw [items_insert_of_notMem h queued]
    exact List.prefix_append _ _

/-- Queueing more than once is queueing all at once. -/
theorem insertMany_append (w : Worklist κ) (xs ys : List κ) :
    w.insertMany (xs ++ ys) = (w.insertMany xs).insertMany ys := List.foldl_append

section Lawful
variable [TransOrd κ] [LawfulEqOrd κ]

theorem Sound.insert {w : Worklist κ} (h : w.Sound) (x : κ) : (w.insert x).Sound := by
  by_cases queued : x ∈ w.items
  · rw [insert_of_mem h queued]
    exact h
  · have new : w.insert x = ⟨w.items ++ [x], w.members.insert x⟩ := by
      rw [Worklist.insert, if_neg]
      rw [TreeSet.contains_iff_mem, h.mem_members]
      exact queued
    rw [new]
    constructor
    · refine List.nodup_append.2 ⟨h.nodup, by simp, ?_⟩
      intro a ha b hb same
      rw [List.mem_singleton] at hb
      exact queued (hb ▸ same ▸ ha)
    · intro y
      rw [TreeSet.mem_insert, LawfulEqCmp.compare_eq_iff_eq, h.mem_members, List.mem_append,
        List.mem_singleton, or_comm, eq_comm]

theorem Sound.insertMany {w : Worklist κ} (h : w.Sound) (xs : List κ) : (w.insertMany xs).Sound := by
  induction xs generalizing w with
  | nil => exact h
  | cons x xs ih => exact ih (h.insert x)

theorem prefix_insertMany {w : Worklist κ} (h : w.Sound) (xs : List κ) :
    w.items <+: (w.insertMany xs).items := by
  induction xs generalizing w with
  | nil => exact List.prefix_rfl
  | cons x xs ih => exact (prefix_insert h x).trans (ih (h.insert x))

theorem mem_insertMany {w : Worklist κ} (h : w.Sound) {xs : List κ} {y : κ} :
    y ∈ (w.insertMany xs).items ↔ y ∈ w.items ∨ y ∈ xs := by
  induction xs generalizing w with
  | nil => simp [insertMany]
  | cons x xs ih =>
    rw [show w.insertMany (x :: xs) = (w.insert x).insertMany xs from rfl, ih (h.insert x),
      mem_insert h, List.mem_cons, or_assoc]

theorem mem_foldl_erase {members : TreeSet κ} {batch : List κ} {y : κ} :
    y ∈ batch.foldl TreeSet.erase members ↔ y ∈ members ∧ y ∉ batch := by
  induction batch generalizing members with
  | nil => simp
  | cons x batch ih =>
    rw [List.foldl_cons, ih, TreeSet.mem_erase, ne_eq, LawfulEqCmp.compare_eq_iff_eq, List.mem_cons,
      not_or, and_comm (a := ¬x = y), and_assoc, eq_comm]

theorem Sound.popBatch {w : Worklist κ} (h : w.Sound) (k : Nat) : (w.popBatch k).2.Sound where
  nodup := h.nodup.sublist (List.drop_sublist k _)
  mem_members := by
    intro x
    have apart := List.nodup_append.1 (List.take_append_drop k w.items ▸ h.nodup)
    rw [Worklist.popBatch, mem_foldl_erase, h.mem_members]
    constructor
    · rintro ⟨queued, notTaken⟩
      rw [← List.take_append_drop k w.items, List.mem_append] at queued
      exact queued.resolve_left notTaken
    · intro left
      exact ⟨List.mem_of_mem_drop left, fun taken => apart.2.2 x taken x left rfl⟩

end Lawful

/-- Taking one out is taking a batch of one. -/
theorem pop_eq_popBatch (w : Worklist κ) :
    w.pop = ((w.popBatch 1).1.head?, (w.popBatch 1).2) := by
  obtain ⟨items, members⟩ := w
  cases items <;> rfl

end Worklist

end Extraction
