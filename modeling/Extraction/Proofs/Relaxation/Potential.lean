import Extraction.Proofs.Relaxation.Invariants
import Mathlib.Algebra.Order.BigOperators.Group.List
import Mathlib.Algebra.Order.Ring.Nat

/-! Runs whose totals come from a list. Each improvement uses up a total for its class, so that the totals
that are left, the queue and the passes to come bound the number of steps. -/
namespace Extraction
open Std

variable {α β : Type} [Cost α]

theorem countP_lt_countP {ν : Type} {p q : ν → Bool} {xs : List ν} {x : ν} (mem : x ∈ xs)
    (weaker : ∀ y ∈ xs, p y = true → q y = true) (only : p x = false) (holds : q x = true) :
    xs.countP p < xs.countP q := by
  induction xs with
  | nil => cases mem
  | cons y xs ih =>
    obtain ⟨first, others⟩ := List.forall_mem_cons.1 weaker
    rw [List.countP_cons, List.countP_cons]
    obtain rfl | later := List.mem_cons.1 mem
    · have rest := List.countP_mono_left others
      rw [if_neg (by simp [only]), if_pos holds]
      omega
    · have rest := ih later others
      by_cases py : p y = true
      · rw [if_pos py, if_pos (first py)]
        omega
      · rw [if_neg py]
        omega

/-- How many of the totals would still improve a class. -/
def Table.room (totals : List α) (table : Table α β) (c : ClassId) : Nat :=
  totals.countP fun a => Cost.improves a (table.total? c)

/-- How many improvements there can be at most. -/
def EGraph.room (g : EGraph α) (totals : List α) (table : Table α β) : Nat :=
  (g.classes.map (table.room totals)).sum

namespace Plan
variable [OrderedCost α] {plan : Plan α β} {g : EGraph α} {r r' : Run α β} {totals : List α}

/-- What improves a class after a round improved it before. -/
theorem improves_of_tableAfter {table : Table α β} {batch : List NodeId} {c : ClassId} {a : α}
    (better : Cost.improves a ((plan.tableAfter g table batch).total? c) = true) :
    Cost.improves a (table.total? c) = true := by
  by_contra worse
  have settled := (lowers_winners plan g table batch c).not_improves (Bool.eq_false_iff.2 worse)
  rw [tableAfter, settled] at better
  cases better

theorem room_tableAfter_le (table : Table α β) (batch : List NodeId) (c : ClassId) :
    (plan.tableAfter g table batch).room totals c ≤ table.room totals c := by
  apply List.countP_mono_left
  intro a _ better
  exact improves_of_tableAfter better

theorem room_winner_lt {table : Table α β} {batch : List NodeId} {c : ClassId} {entry : Entry α β}
    (won : (plan.winners g table batch).get? c = some entry) (listed : entry.total ∈ totals) :
    (plan.tableAfter g table batch).room totals c < table.room totals c := by
  have now : (plan.tableAfter g table batch).total? c = some entry.total := by
    rw [tableAfter, Table.total?_update, won]
    rfl
  apply countP_lt_countP listed
  · intro a _ better
    exact improves_of_tableAfter better
  · rw [now]
    exact Cost.not_improves_self _
  · exact improves_of_winner won

theorem room_lt_of_winner {table : Table α β} {batch : List NodeId} {c : ClassId}
    {entry : Entry α β} (won : (plan.winners g table batch).get? c = some entry)
    (listed : entry.total ∈ totals) (known : c ∈ g.classes) :
    g.room totals (plan.tableAfter g table batch) < g.room totals table :=
  List.sum_lt_sum _ _ (fun d _ => room_tableAfter_le table batch d)
    ⟨c, known, room_winner_lt won listed⟩

/-- What is left to do: the passes, the queue, and to queue all nodes after each improvement. -/
structure Remaining (plan : Plan α β) (g : EGraph α) (totals : List α) (n : Nat) (r : Run α β) :
    Prop where
  reached : plan.Reached g r
  bounded : (plan.passes - r.pass) * (g.nodes.size + 1) + r.queue.items.length +
    g.nodes.size * g.room totals r.table ≤ n

/-- Every candidate of a run comes to one of the totals. -/
def Lists (plan : Plan α β) (g : EGraph α) (totals : List α) : Prop :=
  ∀ {r id entry}, plan.Reached g r → plan.evaluateIn g r.table id = .candidate entry →
    entry.total ∈ totals

omit [OrderedCost α] in
theorem length_queue_round_lt (size : 0 < plan.pace.size) (busy : r.queue.items ≠ [])
    (none : (plan.wins g r).toList = []) (polls : Nat) :
    (plan.round g polls r).queue.items.length < r.queue.items.length := by
  have some := List.length_pos_iff.2 busy
  rw [items_round none, List.length_drop]
  omega

theorem Remaining.step (lists : plan.Lists g totals) (size : 0 < plan.pace.size) {n : Nat}
    (remaining : plan.Remaining g totals n r) (step : plan.Step g r r') :
    ∃ m < n, plan.Remaining g totals m r' := by
  have reached := remaining.reached.step step
  have fits := reached.length_queue_le
  have bounded := remaining.bounded
  suffices less : (plan.passes - r'.pass) * (g.nodes.size + 1) + r'.queue.items.length +
      g.nodes.size * g.room totals r'.table < n from ⟨_, less, reached, Nat.le_refl _⟩
  cases step with
  | pass idle more =>
    obtain ⟨rest, left⟩ := Nat.exists_eq_succ_of_ne_zero (Nat.sub_ne_zero_of_lt more)
    have fewer : plan.passes - (r.pass + 1) = rest := by omega
    rw [left, Nat.succ_mul] at bounded
    rw [Run.nextPass_pass, Run.nextPass_table, fewer]
    omega
  | round polls busy =>
    rw [round_pass]
    cases none : (plan.wins g r).toList with
    | nil =>
      have shorter := length_queue_round_lt (g := g) size busy none polls
      have kept : (plan.round g polls r).table = r.table := by
        simp only [round_table, Table.update, none, List.foldl_nil]
      rw [kept]
      omega
    | cons e rest =>
      have won : (plan.wins g r).get? e.1 = some e.2 :=
        OrderedMap.get?_eq_some_iff.2 (none ▸ List.mem_cons_self)
      obtain ⟨id, _, owner, evaluated⟩ := exists_of_winner won
      obtain ⟨node, stored, _⟩ := evaluateIn_eq_candidate.1 evaluated
      have known : e.1 ∈ g.classes :=
        EGraph.mem_classes.2 ⟨id, node, stored, EGraph.owner_of_node? stored ▸ owner⟩
      have lower := room_lt_of_winner won (lists remaining.reached evaluated) known
      have some := List.length_pos_iff.2 busy
      have product : g.nodes.size * (g.room totals (plan.round g polls r).table + 1) ≤
          g.nodes.size * g.room totals r.table := Nat.mul_le_mul_left _ lower
      rw [Nat.mul_succ] at product
      omega

omit [OrderedCost α] in
theorem room_le (g : EGraph α) (totals : List α) (table : Table α β) :
    g.room totals table ≤ g.classes.length * totals.length := by
  have each : ∀ n ∈ g.classes.map (table.room totals), n ≤ totals.length := by
    intro n mem
    obtain ⟨c, _, rfl⟩ := List.mem_map.1 mem
    exact List.countP_le_length
  have all := List.sum_le_card_nsmul _ _ each
  rwa [List.length_map, nsmul_eq_mul, Nat.cast_id] at all

/-- A run whose totals come from a short list is over within the step limit. -/
theorem over_of_lists (lists : plan.Lists g totals) (size : 0 < plan.pace.size)
    (few : totals.length ≤ g.ways) : (plan.wholeRun g).Over plan.passes := by
  have bounded : plan.Remaining g totals (plan.stepLimit g) .start := by
    refine ⟨.start, ?_⟩
    have room := room_le g totals (∅ : Table α β)
    have more : g.nodes.size * g.room totals (∅ : Table α β) ≤
        g.nodes.size * (g.classes.length * g.ways) :=
      Nat.mul_le_mul_left _ (room.trans (Nat.mul_le_mul_left _ few))
    rw [← Nat.mul_assoc] at more
    rw [stepLimit_eq]
    exact Nat.add_le_add (Nat.le_refl _) more
  exact over_unhurried (fun remaining step => remaining.step lists size step) bounded (Nat.le_refl _)
    rfl

end Plan

end Extraction
