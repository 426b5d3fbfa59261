import Extraction.Proofs.Relaxation.Levels

/-! Runs by a measure go from level to level. The queue is first in, first out: once the nodes are through
that were queued when the totals had come down to a level, they have come down to the next one. On the
last level nothing improves any more, and the queue runs empty. -/
namespace Extraction
open Std
open Cost (Nonnegative)

variable {α : Type} [Cost α]

/-- The totals have come down to the values of a level. -/
def Table.Within (table : Table α Unit) (level : ClassId → Option α) : Prop :=
  ∀ c a, level c = some a → Cost.improves a (table.total? c) = false

namespace Plan

/-- The totals have come down to level `k`, and so has every node except for those among the first `m`
of the queue: what it comes to above that level is no better than what its class has. -/
structure Phase (measure : Node α → List α → α) (g : EGraph α) (k m : Nat) (r : Run α Unit) :
    Prop where
  within : r.table.Within (g.leastWithin measure k)
  through : ∀ id node a, g.node? id = some node → id ∉ r.queue.items.take m →
    valueAbove measure (g.leastWithin measure k) node = some a →
    Cost.improves a (r.table.total? node.eclass) = false
  short : m ≤ r.queue.items.length

variable {measure : Node α → List α → α} {g : EGraph α} {r r' : Run α Unit}

theorem not_mem_batch_of_not_mem_take {m : Nat} {polls : Nat} {id : NodeId}
    (reached : (byMeasure measure).Reached g r) (short : m + 1 ≤ r.queue.items.length)
    (h : id ∉ (((byMeasure measure).round g polls r).queue.items.take m)) :
    id ∈ (byMeasure measure).batch r ∨ id ∉ r.queue.items.take (m + 1) := by
  obtain ⟨more, whole⟩ : r.queue.items.drop 1 <+: ((byMeasure measure).round g polls r).queue.items :=
    prefix_items_round (byMeasure measure) g polls reached.sound
  have fits : m ≤ (r.queue.items.drop 1).length := by
    rw [List.length_drop]
    omega
  rw [← whole, List.take_append_of_le_length fits] at h
  by_cases taken : id ∈ (byMeasure measure).batch r
  · exact .inl taken
  · rw [Nat.add_comm, List.take_add, List.mem_append, not_or]
    exact .inr ⟨taken, h⟩

section Ordered
variable [OrderedCost α] (superior : Superior measure)
include superior

/-- Above the totals of a table a node comes to no more than above a level that they have come down to. -/
theorem exists_candidate_of_within {table : Table α Unit}
    (nonnegative : table.Nonnegative) {k : Nat} {id : NodeId} {node : Node α} {a : α}
    (within : table.Within (g.leastWithin measure k))
    (stored : g.node? id = some node)
    (value : valueAbove measure (g.leastWithin measure k) node = some a) :
    ∃ entry, (byMeasure measure).evaluateIn g table id = .candidate entry ∧
      Nonnegative entry.total ∧ ¬ a < entry.total := by
  obtain ⟨below', values', rfl⟩ := valueAbove_eq_some.1 value
  have defined : ∀ c ∈ node.children, ∃ total, table.total? c = some total := by
    intro c child
    obtain ⟨b, _, level⟩ := mem_mapM values' child
    obtain ⟨total, held, _⟩ := Cost.not_improves_iff.1 (within c b level)
    exact ⟨total, held⟩
  obtain ⟨below, values⟩ := exists_mapM defined
  have pairs : List.Forall₂ (fun x y => ¬ y < x) below below' := by
    apply forall₂_of_mapM values values'
    intro c _ total b held level
    exact Cost.not_improves_some.1 (held ▸ within c b level)
  refine ⟨⟨id, measure node below, ()⟩, ?_,
    superior.nonnegative_measure nonnegative stored values, ?_⟩
  · exact evaluateIn_byMeasure stored values
  · exact superior.mono (EGraph.nonnegative_cost stored) (nonnegative.below values)
      (EGraph.nonnegative_below superior values') pairs

/-- If what a node comes to does not improve its class, neither does what it comes to above the level. -/
theorem not_improves_of_within {table table' : Table α Unit} (nonnegative : table.Nonnegative)
    (nonnegative' : table'.Nonnegative) {k : Nat} {id : NodeId} {node : Node α} {a : α}
    (within : table.Within (g.leastWithin measure k)) (stored : g.node? id = some node)
    (value : valueAbove measure (g.leastWithin measure k) node = some a)
    (settled : ∀ entry, (byMeasure measure).evaluateIn g table id = .candidate entry →
      Cost.improves entry.total (table'.total? id.owner) = false) :
    Cost.improves a (table'.total? node.eclass) = false := by
  obtain ⟨entry, evaluated, positive, notLess⟩ :=
    exists_candidate_of_within superior nonnegative within stored value
  have bound := settled entry evaluated
  rw [EGraph.owner_of_node? stored] at bound
  exact Cost.not_improves_of_not_lt (EGraph.nonnegative_above superior stored value) positive
    (fun c held => nonnegative' held) notLess bound

/-- A round takes the first node of the queue through. -/
theorem Phase.round {k m : Nat} (reached : (byMeasure measure).Reached g r)
    (phase : Phase measure g k (m + 1) r) (polls : Nat) :
    Phase measure g k m ((byMeasure measure).round g polls r) := by
  have lowers := lowers_winners (byMeasure measure) g r.table ((byMeasure measure).batch r)
  have busy : r.queue.items ≠ [] := fun none => by simpa [none] using phase.short
  have next := reached.step (.round polls busy)
  constructor
  · intro c a level
    exact (lowers c).not_improves (phase.within c a level)
  · intro id node a stored behind value
    obtain taken | before := not_mem_batch_of_not_mem_take reached phase.short behind
    · apply not_improves_of_within superior (reached.nonnegative superior)
        (next.nonnegative superior) phase.within stored value
      intro entry evaluated
      exact not_improves_of_evaluated taken evaluated
    · exact (lowers _).not_improves (phase.through id node a stored before value)
  · have kept : r.queue.items.drop 1 <+: ((byMeasure measure).round g polls r).queue.items :=
      prefix_items_round (byMeasure measure) g polls reached.sound
    have fits := kept.length_le
    rw [List.length_drop] at fits
    have short := phase.short
    omega

/-- Once all nodes are through, the totals have come down to the next level. -/
theorem Phase.succ {k : Nat} (reached : (byMeasure measure).Reached g r) (begun : 0 < r.pass)
    (phase : Phase measure g k 0 r) :
    Phase measure g (k + 1) r.queue.items.length r := by
  have within : r.table.Within (g.leastWithin measure (k + 1)) := by
    intro c a level
    rcases EGraph.leastWithin_succ_cases g measure k c with same | ⟨id, node, stored, owner, value⟩
    · exact phase.within c a (same ▸ level)
    · exact owner ▸ phase.through id node a stored List.not_mem_nil (value.trans level)
  refine ⟨within, ?_, Nat.le_refl _⟩
  intro id node a stored behind value
  rw [List.take_length] at behind
  have nonnegative := reached.nonnegative superior
  apply not_improves_of_within superior nonnegative nonnegative within stored value
  exact reached.spent careful_byMeasure behind (.inl begun)

/-- Above totals that are not below the last level, no node comes to less than its class on it. -/
theorem leastWithin_le_measure {table : Table α Unit}
    (nonnegative : table.Nonnegative)
    (bounded : ∀ c a, table.total? c = some a →
      ∃ b, g.leastWithin measure g.classes.length c = some b ∧ ¬ a < b)
    {id : NodeId} {node : Node α} {below : List α} (stored : g.node? id = some node)
    (values : node.children.mapM table.total? = some below) :
    ∃ b, g.leastWithin measure g.classes.length node.eclass = some b ∧ ¬ measure node below < b := by
  have defined : ∀ c ∈ node.children,
      ∃ b, g.leastWithin measure g.classes.length c = some b := by
    intro c child
    obtain ⟨a, _, held⟩ := mem_mapM values child
    obtain ⟨b, level, _⟩ := bounded c a held
    exact ⟨b, level⟩
  obtain ⟨below', values'⟩ := exists_mapM defined
  have pairs : List.Forall₂ (fun b a => ¬ a < b) below' below := by
    apply forall₂_of_mapM values' values
    intro c _ b a level held
    obtain ⟨b', level', notLess⟩ := bounded c a held
    rwa [Option.some.inj (level.symm.trans level')]
  have value : valueAbove measure (g.leastWithin measure g.classes.length) node =
      some (measure node below') := valueAbove_eq_some.2 ⟨below', values', rfl⟩
  have least := EGraph.not_improves_leastWithin stored value
  rw [EGraph.leastWithin_stable superior] at least
  obtain ⟨b, level, notLess⟩ := Cost.not_improves_iff.1 least
  have higher := superior.mono (EGraph.nonnegative_cost stored)
    (EGraph.nonnegative_below superior values') (nonnegative.below values) pairs
  exact ⟨b, level, OrderedCost.not_lt_trans (EGraph.nonnegative_leastWithin superior level)
    (EGraph.nonnegative_above superior stored value)
    (superior.nonnegative_measure nonnegative stored values) notLess higher⟩

theorem Reached.leastWithin_le (reached : (byMeasure measure).Reached g r) {c : ClassId} {a : α}
    (held : r.table.total? c = some a) :
    ∃ b, g.leastWithin measure g.classes.length c = some b ∧ ¬ a < b := by
  induction reached generalizing c a with
  | start => cases held
  | step before step ih =>
    cases step with
    | pass => exact ih held
    | round polls busy =>
      obtain ⟨entry, now, rfl⟩ := Table.total?_eq_some_iff.1 held
      obtain won | ⟨_, old⟩ := Table.entry_of_update now
      · obtain ⟨node, stored, rfl, _, candidate, _⟩ := careful_byMeasure.node_of_winner won
        obtain ⟨below, values, same⟩ := measureEvaluation_eq_candidate.1 candidate
        rw [same]
        exact leastWithin_le_measure superior (before.nonnegative superior) (fun c a => ih) stored
          values
      · exact ih (Table.total?_of_get? old)

/-- On the last level there is nothing left to improve. -/
theorem Phase.wins_eq_nil {m : Nat} (reached : (byMeasure measure).Reached g r)
    (phase : Phase measure g g.classes.length m r) :
    ((byMeasure measure).wins g r).toList = [] := by
  apply List.eq_nil_iff_forall_not_mem.2
  rintro ⟨c, entry⟩ mem
  have won := OrderedMap.get?_eq_some_iff.2 mem
  obtain ⟨node, stored, rfl, _, candidate, _⟩ := careful_byMeasure.node_of_winner won
  obtain ⟨below, values, same⟩ := measureEvaluation_eq_candidate.1 candidate
  have nonnegative := reached.nonnegative superior
  obtain ⟨b, level, notLess⟩ := leastWithin_le_measure superior nonnegative
    (fun c a => reached.leastWithin_le superior) stored values
  have worse : Cost.improves entry.total (r.table.total? node.eclass) = false := by
    rw [same]
    exact Cost.not_improves_of_not_lt (superior.nonnegative_measure nonnegative stored values)
      (EGraph.nonnegative_leastWithin superior level) (fun c held => nonnegative held) notLess
      (phase.within _ b level)
  have better := improves_of_winner won
  rw [worse] at better
  cases better

/-- What is left to do: to take `m` nodes through the level, and then on every later level as many as
there are at most. -/
structure Pending (measure : Node α → List α → α) (g : EGraph α) (n : Nat) (r : Run α Unit) :
    Prop where
  reached : (byMeasure measure).Reached g r
  bounded : r.pass = 0 ∧ g.classes.length * g.nodes.size + g.nodes.size < n ∨
    r.pass = 1 ∧ ∃ k m, k ≤ g.classes.length ∧ Phase measure g k m r ∧
      (k = g.classes.length → m = r.queue.items.length) ∧
      (g.classes.length - k) * g.nodes.size + m ≤ n

/-- As long as something is queued, there is a node to take through. -/
theorem Phase.exists_succ {k m n : Nat} (reached : (byMeasure measure).Reached g r)
    (busy : r.queue.items ≠ []) (le : k ≤ g.classes.length) (phase : Phase measure g k m r)
    (last : k = g.classes.length → m = r.queue.items.length)
    (room : (g.classes.length - k) * g.nodes.size + m ≤ n) :
    ∃ k m, k ≤ g.classes.length ∧ Phase measure g k (m + 1) r ∧
      (k = g.classes.length → m + 1 = r.queue.items.length) ∧
      (g.classes.length - k) * g.nodes.size + (m + 1) ≤ n := by
  have some : 0 < r.queue.items.length := List.length_pos_iff.2 busy
  cases m with
  | succ m => exact ⟨k, m, le, phase, last, room⟩
  | zero =>
    have less : k < g.classes.length := by
      apply Nat.lt_of_le_of_ne le
      intro same
      have := last same
      omega
    obtain ⟨length, same⟩ := Nat.exists_eq_succ_of_ne_zero (Nat.ne_of_gt some)
    obtain ⟨rest, left⟩ := Nat.exists_eq_succ_of_ne_zero (Nat.sub_ne_zero_of_lt less)
    have next := phase.succ superior reached (reached.pass_pos busy)
    have fits := reached.length_queue_le
    rw [same] at next fits
    refine ⟨k + 1, length, less, next, fun _ => same.symm, ?_⟩
    rw [left, Nat.succ_mul] at room
    rw [show g.classes.length - (k + 1) = rest by omega]
    omega

theorem Pending.step {n : Nat} (pending : Pending measure g n r)
    (step : (byMeasure measure).Step g r r') : ∃ m < n, Pending measure g m r' := by
  have reached := pending.reached.step step
  cases step with
  | pass idle more =>
    obtain ⟨first, room⟩ | ⟨later, _⟩ := pending.bounded
    · have fits := reached.length_queue_le
      refine ⟨g.classes.length * g.nodes.size + g.nodes.size, room, reached, .inr ⟨?_, 0,
        (r.nextPass g).queue.items.length, Nat.zero_le _, ⟨?_, ?_, Nat.le_refl _⟩, fun _ => rfl, ?_⟩⟩
      · rw [Run.nextPass_pass, first]
      · intro c a level
        cases level
      · intro id node a stored behind value
        rw [List.take_length, Run.mem_items_nextPass pending.reached.sound] at behind
        obtain ⟨below, values, _⟩ := valueAbove_eq_some.1 value
        have leaf : node.isLeaf = true := by
          apply List.isEmpty_iff.2
          apply List.eq_nil_iff_forall_not_mem.2
          intro c child
          obtain ⟨b, _, level⟩ := mem_mapM values child
          cases level
        exact absurd (.inr ⟨node, stored, .inr leaf⟩) behind
      · rw [Nat.sub_zero]
        omega
    · rw [later] at more
      exact absurd more (Nat.lt_irrefl 1)
  | round polls busy =>
    obtain ⟨first, _⟩ | ⟨later, k, m, le, phase, last, room⟩ := pending.bounded
    · exact absurd (pending.reached.pass_pos busy) (by omega)
    · obtain ⟨k, m, le, phase, last, room⟩ :=
        phase.exists_succ superior pending.reached busy le last room
      refine ⟨n - 1, by omega, reached, .inr ⟨later, k, m, le,
        phase.round superior pending.reached polls, ?_, by omega⟩⟩
      intro final
      subst final
      have left : ((byMeasure measure).round g polls r).queue.items = r.queue.items.drop 1 :=
        items_round (phase.wins_eq_nil superior pending.reached) polls
      rw [left, List.length_drop]
      have := last rfl
      omega

end Ordered

/-- A run by a measure is over within the step limit. -/
theorem over_byMeasure [OrderedCost α] (superior : Superior measure) (g : EGraph α) :
    ((byMeasure measure).wholeRun g).Over 1 := by
  have bounded : Pending measure g (g.classes.length * g.nodes.size + g.nodes.size + 1) .start :=
    ⟨.start, .inl ⟨rfl, Nat.lt_succ_self _⟩⟩
  refine over_unhurried (fun pending step => pending.step superior step) bounded ?_ rfl
  have more : g.nodes.size * g.classes.length * 1 ≤ g.nodes.size * g.classes.length * g.ways :=
    Nat.mul_le_mul_left _ g.ways_pos
  have once : (byMeasure measure).passes = 1 := rfl
  rw [stepLimit_eq, once, Nat.mul_comm g.classes.length]
  omega

end Plan

end Extraction
