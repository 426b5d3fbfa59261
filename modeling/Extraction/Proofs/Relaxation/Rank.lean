import Extraction.Proofs.Relaxation.Measure

/-! The rank of a class in a run by a measure: its total and, for equal totals, how long ago its
realization was put in. A realization never ranks below that of a child, since totals only fall; where the
totals are equal, the child's realization was there first. So no class can lead back to itself, even if
nodes cost nothing. -/
namespace Extraction
open Std
open Cost (Nonnegative)

variable {α : Type} [Cost α]

/-- The realization of a child ranks below that of the class: its total is lower, or it is not higher and
its stamp is older. -/
def RanksBelow (total total' : α) (stamp stamp' : Nat) : Prop :=
  total < total' ∨ ¬ total' < total ∧ stamp < stamp'

/-- Every class ranks above the children of its node. -/
def Ranked (g : EGraph α) (stamp : ClassId → Nat) (table : Table α Unit) : Prop :=
  ∀ c entry node d below, TreeMap.get? table c = some entry → g.node? entry.choice = some node →
    d ∈ node.children → TreeMap.get? table d = some below →
    RanksBelow below.total entry.total (stamp d) (stamp c)

/-- The stamps after a round. -/
def restamp (winners : OrderedMap ClassId (Entry α Unit)) (bound : Nat) (stamp : ClassId → Nat)
    (c : ClassId) : Nat :=
  if c ∈ winners.keys then bound + 1 else stamp c

omit [Cost α] in
theorem restamp_of_won {winners : OrderedMap ClassId (Entry α Unit)} {c : ClassId}
    {entry : Entry α Unit} (won : winners.get? c = some entry) (bound : Nat) (stamp : ClassId → Nat) :
    restamp winners bound stamp c = bound + 1 :=
  if_pos (OrderedMap.mem_keys_of_mem (OrderedMap.get?_eq_some_iff.1 won))

omit [Cost α] in
theorem restamp_of_lost {winners : OrderedMap ClassId (Entry α Unit)} {c : ClassId}
    (lost : winners.get? c = none) (bound : Nat) (stamp : ClassId → Nat) :
    restamp winners bound stamp c = stamp c :=
  if_neg (OrderedMap.get?_eq_none_iff.1 lost)

section Ordered
variable [OrderedCost α]

theorem RanksBelow.trans {a b c : α} {i j k : Nat} (ha : Nonnegative a) (hb : Nonnegative b)
    (hc : Nonnegative c) (h : RanksBelow a b i j) (h' : RanksBelow b c j k) : RanksBelow a c i k := by
  obtain less | ⟨notLess, older⟩ := h
  · obtain less' | ⟨notLess', _⟩ := h'
    · exact .inl (OrderedCost.trans less less')
    · exact .inl (OrderedCost.lt_of_lt_of_not_lt ha hb hc less notLess')
  · obtain less' | ⟨notLess', older'⟩ := h'
    · exact .inl (OrderedCost.lt_of_not_lt_of_lt ha hb hc notLess less')
    · exact .inr ⟨OrderedCost.not_lt_trans ha hb hc notLess notLess', Nat.lt_trans older older'⟩

theorem RanksBelow.irrefl {a : α} {i : Nat} : ¬ RanksBelow a a i i := by
  rintro (less | ⟨_, older⟩)
  · exact OrderedCost.irrefl a less
  · exact Nat.lt_irrefl i older

namespace Plan
variable {measure : Node α → List α → α} {g : EGraph α} {r : Run α Unit}

/-- A round gives its winners a new stamp. -/
theorem Ranked.tableAfter (superior : Superior measure) {stamp : ClassId → Nat} {table : Table α Unit}
    {batch : List NodeId} {bound : Nat} (ranked : Ranked g stamp table) (founded : Founded g table)
    (old : ∀ c, stamp c ≤ bound) (nonnegative : table.Nonnegative)
    (nonnegative' : ((byMeasure measure).tableAfter g table batch).Nonnegative) :
    Ranked g (restamp ((byMeasure measure).winners g table batch) bound stamp)
      ((byMeasure measure).tableAfter g table batch) := by
  intro c entry node d below held stored child heldBelow
  have positive : Nonnegative entry.total := nonnegative' (Table.total?_of_get? held)
  have positive' : Nonnegative below.total := nonnegative' (Table.total?_of_get? heldBelow)
  -- a child that has just won is strictly below its old total
  have fallen : ∀ b, table.total? d = some b →
      ((byMeasure measure).winners g table batch).get? d = some below → ¬ entry.total < b →
      below.total < entry.total := by
    intro b before won notLess
    exact OrderedCost.lt_of_lt_of_not_lt positive' (nonnegative before) positive
      (total_lt_of_winner won before) notLess
  obtain won | ⟨lost, kept⟩ := Table.entry_of_update held
  · obtain ⟨node', stored', owner, _, candidate, _⟩ := careful_byMeasure.node_of_winner won
    obtain rfl := Option.some.inj (stored.symm.trans stored')
    obtain ⟨totals, values, same⟩ := measureEvaluation_eq_candidate.1 candidate
    obtain ⟨b, mem, before⟩ := mem_mapM values child
    have notLess : ¬ entry.total < b := by
      rw [same]
      exact superior.above (EGraph.nonnegative_cost stored) (nonnegative.below values) mem
    obtain wonBelow | ⟨lostBelow, keptBelow⟩ := Table.entry_of_update heldBelow
    · exact .inl (fallen b before wonBelow notLess)
    · have same : below.total = b := by
        rw [Table.total?, keptBelow] at before
        exact Option.some.inj before
      refine .inr ⟨same ▸ notLess, ?_⟩
      rw [restamp_of_lost lostBelow, restamp_of_won won]
      exact Nat.lt_succ_of_le (old d)
  · obtain ⟨node', stored', _, covered⟩ := founded c entry kept
    obtain rfl := Option.some.inj (stored.symm.trans stored')
    obtain wonBelow | ⟨lostBelow, keptBelow⟩ := Table.entry_of_update heldBelow
    · obtain ⟨before, heldBefore⟩ := Table.covers_iff.1 (covered d child)
      have total : table.total? d = some before.total := Table.total?_of_get? heldBefore
      refine .inl (fallen before.total total wonBelow ?_)
      obtain less | ⟨notLess, _⟩ := ranked c entry node d before kept stored child heldBefore
      · exact OrderedCost.asymm less
      · exact notLess
    · rw [restamp_of_lost lostBelow, restamp_of_lost lost]
      exact ranked c entry node d below kept stored child keptBelow

theorem Reached.exists_ranked (superior : Superior measure)
    (reached : (byMeasure measure).Reached g r) :
    ∃ stamp bound, (∀ c, stamp c ≤ bound) ∧ Ranked g stamp r.table := by
  induction reached with
  | start => exact ⟨fun _ => 0, 0, fun _ => Nat.le_refl 0, fun c entry node d below h => by cases h⟩
  | step before step ih =>
    have after := before.step step
    cases step with
    | pass => exact ih
    | round polls busy =>
      obtain ⟨stamp, bound, old, ranked⟩ := ih
      have next := Ranked.tableAfter superior ranked (before.founded careful_byMeasure) old
        (before.nonnegative superior) (after.nonnegative superior)
      refine ⟨_, bound + 1, ?_, next⟩
      intro c
      unfold restamp
      split
      · exact Nat.le_refl _
      · exact Nat.le_succ_of_le (old c)

end Plan

end Ordered

end Extraction
