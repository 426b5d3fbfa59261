import Extraction.Worklist
import Mathlib.Data.List.Forall2

/-! What goes through a worklist. Whatever is asked of it, the set of a worklist holds what its queue holds, and
every element that is not queued when it comes in takes a place of its own: the elements leave in the order of
their places, each once and later than it came. -/
namespace Extraction
open Std

/-- What can be asked of a worklist. -/
inductive Request (κ : Type) where
  | insert (x : κ)
  | insertMany (xs : List κ)
  | pop
  | popBatch (k : Nat)

namespace Worklist
variable {κ : Type} [Ord κ]

/-- What a request takes out, and the worklist after it. -/
def serve (w : Worklist κ) : Request κ → List κ × Worklist κ
  | .insert x => ([], w.insert x)
  | .insertMany xs => ([], w.insertMany xs)
  | .pop => (w.pop.1.toList, w.pop.2)
  | .popBatch k => w.popBatch k

/-- The worklist after several requests. -/
def served (w : Worklist κ) (requests : List (Request κ)) : Worklist κ :=
  requests.foldl (fun w r => (w.serve r).2) w

/-- The elements that leave, each with the number of the request that takes it out. -/
def departures (w : Worklist κ) (n : Nat) : List (Request κ) → List (Nat × κ)
  | [] => []
  | r :: rest => (w.serve r).1.map (n, ·) ++ (w.serve r).2.departures (n + 1) rest

/-- An element that has arrived leaves, with a later request. -/
def Leaves (arrived departed : Nat × κ) : Prop := departed.2 = arrived.2 ∧ arrived.1 < departed.1

/-- Takes one out, `k` times. -/
def pops (w : Worklist κ) : Nat → List (Option κ) × Worklist κ
  | 0 => ([], w)
  | k + 1 => (w.pop.1 :: (w.pop.2.pops k).1, (w.pop.2.pops k).2)

section Arrivals
variable [DecidableEq κ]

/-- The elements of a list that are not queued when their turn comes. -/
def fresh (w : Worklist κ) : List κ → List κ
  | [] => []
  | x :: xs => (if x ∈ w.items then [] else [x]) ++ (w.insert x).fresh xs

/-- The elements that a request brings in. -/
def brought (w : Worklist κ) : Request κ → List κ
  | .insert x => w.fresh [x]
  | .insertMany xs => w.fresh xs
  | .pop => []
  | .popBatch _ => []

/-- The elements that come in, each with the number of the request that brings it. -/
def arrivals (w : Worklist κ) (n : Nat) : List (Request κ) → List (Nat × κ)
  | [] => []
  | r :: rest => (w.brought r).map (n, ·) ++ (w.serve r).2.arrivals (n + 1) rest

end Arrivals

/-- What the requests make of an empty worklist. -/
def ofRequests (requests : List (Request κ)) : Worklist κ := empty.served requests

/-- Taking a batch is taking one out that many times; where there are fewer, nothing comes the other times. -/
theorem pops_eq (w : Worklist κ) (k : Nat) :
    w.pops k =
      ((w.popBatch k).1.map some ++ List.replicate (k - (w.popBatch k).1.length) none, (w.popBatch k).2) := by
  induction k generalizing w with
  | zero => rfl
  | succ k ih =>
    rw [pops, ih]
    obtain ⟨items, members⟩ := w
    cases items with
    | nil => simp [pop, popBatch, List.replicate_succ]
    | cons x items => simp [pop, popBatch]

section Lawful
variable [TransOrd κ] [LawfulEqOrd κ] {w : Worklist κ}

theorem Sound.pop (h : w.Sound) : w.pop.2.Sound := by
  rw [pop_eq_popBatch]
  exact h.popBatch 1

theorem Sound.serve (h : w.Sound) (r : Request κ) : (w.serve r).2.Sound := by
  cases r with
  | insert x => exact h.insert x
  | insertMany xs => exact h.insertMany xs
  | pop => exact h.pop
  | popBatch k => exact h.popBatch k

theorem Sound.served (h : w.Sound) (requests : List (Request κ)) : (w.served requests).Sound := by
  induction requests generalizing w with
  | nil => exact h
  | cons r requests ih => exact ih (h.serve r)

/-- The set of a worklist is as large as its queue. -/
theorem Sound.size_members (h : w.Sound) : w.members.size = w.items.length := by
  have distinct : w.members.toList.Nodup := by
    refine TreeSet.distinct_toList.imp fun apart same => ?_
    exact apart (compare_eq_iff_eq.2 same)
  have perm : w.members.toList.Perm w.items :=
    (List.perm_ext_iff_of_nodup distinct h.nodup).2 fun x => by rw [TreeSet.mem_toList, h.mem_members]
  rw [← TreeSet.length_toList, perm.length_eq]

theorem Sound.isEmpty_members (h : w.Sound) : w.members.isEmpty = w.items.isEmpty := by
  rw [TreeSet.isEmpty_eq_size_eq_zero, h.size_members]
  cases w.items <;> rfl

variable [DecidableEq κ]

theorem items_insertMany (h : w.Sound) (xs : List κ) :
    (w.insertMany xs).items = w.items ++ w.fresh xs := by
  induction xs generalizing w with
  | nil => exact (List.append_nil _).symm
  | cons x xs ih =>
    have others := ih (h.insert x)
    rw [show w.insertMany (x :: xs) = (w.insert x).insertMany xs from rfl, others, fresh]
    by_cases queued : x ∈ w.items
    · rw [if_pos queued, List.nil_append, insert_of_mem h queued]
    · rw [if_neg queued, items_insert_of_notMem h queued, List.append_assoc]

/-- A request brings elements in behind those that are queued, or takes elements out in front of them. -/
theorem serve_cases (h : w.Sound) (r : Request κ) :
    ((w.serve r).1 = [] ∧ (w.serve r).2.items = w.items ++ w.brought r) ∨
      ∃ k, w.brought r = [] ∧ (w.serve r).1 = w.items.take k ∧ (w.serve r).2.items = w.items.drop k := by
  cases r with
  | insert x => exact .inl ⟨rfl, items_insertMany h [x]⟩
  | insertMany xs => exact .inl ⟨rfl, items_insertMany h xs⟩
  | pop =>
    refine .inr ⟨1, rfl, ?_, ?_⟩
    · rw [serve, pop_fst, List.take_one]
    · rw [serve, items_pop, List.drop_one]
  | popBatch k => exact .inr ⟨k, rfl, popBatch_fst w k, items_popBatch w k⟩

/-- What is queued and what comes in leaves in that order, each element later than it came, or stays. -/
theorem exists_split (h : w.Sound) {n : Nat} {waiting : List (Nat × κ)}
    (queued : waiting.map Prod.snd = w.items) (earlier : ∀ a ∈ waiting, a.1 < n) (requests : List (Request κ)) :
    ∃ left stay, waiting ++ w.arrivals n requests = left ++ stay ∧
      List.Forall₂ Leaves left (w.departures n requests) ∧
      stay.map Prod.snd = (w.served requests).items := by
  induction requests generalizing w n waiting with
  | nil => exact ⟨[], waiting, List.append_nil _, .nil, queued⟩
  | cons r requests ih =>
    -- What the request brings in waits behind the others; what it takes out has waited longest.
    obtain ⟨none, behind⟩ | ⟨k, none, front, left⟩ := serve_cases h r
    · have queued' : (waiting ++ (w.brought r).map (n, ·)).map Prod.snd = (w.serve r).2.items := by
        rw [behind, List.map_append, queued, List.map_map]
        exact congrArg _ (List.map_id _)
      have earlier' : ∀ a ∈ waiting ++ (w.brought r).map (n, ·), a.1 < n + 1 := by
        intro a mem
        obtain old | new := List.mem_append.1 mem
        · exact Nat.lt_succ_of_lt (earlier a old)
        · obtain ⟨x, _, rfl⟩ := List.mem_map.1 new
          exact Nat.lt_succ_self n
      obtain ⟨left, stay, split, order, stays⟩ := ih (h.serve r) queued' earlier'
      refine ⟨left, stay, ?_, ?_, stays⟩
      · rw [arrivals, ← List.append_assoc, split]
      · rwa [departures, none, List.map_nil, List.nil_append]
    · have queued' : (waiting.drop k).map Prod.snd = (w.serve r).2.items := by
        rw [left, List.map_drop, queued]
      have earlier' : ∀ a ∈ waiting.drop k, a.1 < n + 1 := fun a mem =>
        Nat.lt_succ_of_lt (earlier a (List.mem_of_mem_drop mem))
      obtain ⟨left, stay, split, order, stays⟩ := ih (h.serve r) queued' earlier'
      have now : List.Forall₂ Leaves (waiting.take k) ((w.serve r).1.map (n, ·)) := by
        rw [front, ← queued, ← List.map_take, List.map_map, List.forall₂_map_right_iff, List.forall₂_same]
        exact fun a mem => ⟨rfl, earlier a (List.mem_of_mem_take mem)⟩
      refine ⟨waiting.take k ++ left, stay, ?_, List.rel_append now order, stays⟩
      rw [arrivals, none, List.map_nil, List.nil_append, List.append_assoc, ← split, ← List.append_assoc,
        List.take_append_drop]

/-- However a worklist is used that was empty at first, its queue holds nothing twice, its set holds what its queue
holds, and both are of one size. The elements that come in while they are not queued leave in the order in which
they came, each once and by a later request, but for the last of them, which are the queue. A batch of `k` is what
is taken out one by one in `k` times, and leaves the same worklist. -/
theorem served_in_order (requests : List (Request κ)) :
    ((ofRequests requests).items.Nodup ∧
        ∀ x, x ∈ (ofRequests requests).members ↔ x ∈ (ofRequests requests).items) ∧
      ((ofRequests requests).size = (ofRequests requests).items.length ∧
        (ofRequests requests).size = (ofRequests requests).members.size ∧
        (ofRequests requests).isEmpty = (ofRequests requests).items.isEmpty ∧
        (ofRequests requests).isEmpty = (ofRequests requests).members.isEmpty) ∧
      (∃ left stay, empty.arrivals 0 requests = left ++ stay ∧
        List.Forall₂ Leaves left (empty.departures 0 requests) ∧
        stay.map Prod.snd = (ofRequests requests).items) ∧
      ∀ k, (ofRequests requests).pops k =
        (((ofRequests requests).popBatch k).1.map some ++
            List.replicate (k - ((ofRequests requests).popBatch k).1.length) none,
          ((ofRequests requests).popBatch k).2) := by
  have sound : (ofRequests requests).Sound := sound_empty.served requests
  refine ⟨⟨sound.nodup, sound.mem_members⟩, ⟨rfl, sound.size_members.symm, rfl, sound.isEmpty_members.symm⟩,
    ?_, pops_eq _⟩
  exact exists_split sound_empty List.map_nil (List.forall_mem_nil _) requests

end Lawful

/-- Elements come in while they are queued, and again after they have left, alone and with others. -/
def mixedRequests : List (Request Nat) :=
  [.insertMany [3, 1, 3, 2, 1], .pop, .insert 3, .insert 1, .popBatch 2, .insertMany [2, 1], .pop]

theorem mixedRequests_in_order :
    empty.arrivals 0 mixedRequests = [(0, 3), (0, 1), (0, 2), (2, 3), (5, 2), (5, 1)] ∧
      empty.departures 0 mixedRequests = [(1, 3), (4, 1), (4, 2), (6, 3)] ∧
      (ofRequests mixedRequests).pops 3 = ([some 2, some 1, none], ((ofRequests mixedRequests).popBatch 3).2) ∧
      ∃ left stay, empty.arrivals 0 mixedRequests = left ++ stay ∧
        List.Forall₂ Leaves left (empty.departures 0 mixedRequests) ∧ stay.map Prod.snd = [2, 1] := by
  obtain ⟨_, _, order, taken⟩ := served_in_order mixedRequests
  exact ⟨by decide +kernel, by decide +kernel, taken 3, order⟩

end Worklist
end Extraction
