import Extraction.Proofs.Relaxation.Invariants

/-! Where a run that is never late comes to an end. There is one next step at most, so that all sequences
of steps lead there. As soon as the queue is empty after a pass has begun, no node has anything better to
offer than what its class has; from then on rounds have no winners, and later passes change neither the
table nor the improvements made. -/
namespace Extraction
open Std

variable {α β : Type} [Cost α]

namespace Plan
variable {plan : Plan α β} {g : EGraph α} {n m : Nat} {r r' r'' : Run α β}

/-- A run that has stopped is where all sequences of steps lead. -/
theorem Steps.le_of_stops (steps : plan.Steps g n r r') (stops : plan.advance g false r' = none)
    (other : plan.Steps g m r r'') : m ≤ n := by
  induction steps generalizing m with
  | zero =>
    cases other with
    | zero => exact Nat.le_refl _
    | succ goes => cases goes.symm.trans stops
  | succ goes _ ih =>
    cases other with
    | zero => exact Nat.zero_le _
    | succ goes' others =>
      obtain rfl := Option.some.inj (goes.symm.trans goes')
      exact Nat.succ_le_succ (ih stops others)

theorem stops_of_over (plan : Plan α β) (g : EGraph α) (ended : r.Over plan.passes) :
    plan.advance g false r = none := by
  have idle : r.queue.isEmpty = true := List.isEmpty_iff.2 ended.idle
  have done : ¬ r.pass < plan.passes := Nat.not_lt.2 ended.done
  simp [advance, idle, done]

theorem Reached.pass_le (reached : plan.Reached g r) : r.pass ≤ plan.passes := by
  induction reached with
  | start => exact Nat.zero_le _
  | step _ step ih =>
    cases step with
    | pass _ more => exact more
    | round => exact ih

/-- The run without a time limit takes `n` steps to its end, no sequence of steps is longer, and at the
end nothing is queued and all passes are made. -/
structure EndsAfter (plan : Plan α β) (g : EGraph α) (n : Nat) : Prop where
  steps : plan.Steps g n .start (plan.wholeRun g)
  longest : ∀ m r, plan.Steps g m .start r → m ≤ n
  idle : (plan.wholeRun g).queue.items = []
  done : (plan.wholeRun g).pass = plan.passes

theorem exists_endsAfter (ended : (plan.wholeRun g).Over plan.passes) :
    ∃ n ≤ plan.stepLimit g, plan.EndsAfter g n := by
  obtain ⟨n, le, steps⟩ := plan.exists_steps g (plan.stepLimit g) .start
  have stops := plan.stops_of_over g ended
  have passed := (plan.reached_wholeRun g).pass_le
  exact ⟨n, le, steps, fun m r other => steps.le_of_stops stops other, ended.idle,
    Nat.le_antisymm passed ended.done⟩

/-- The plan with no more than one pass. -/
def once (plan : Plan α β) : Plan α β := { plan with passes := 1 }

/-- No node has anything better to offer. -/
def Settled (plan : Plan α β) (g : EGraph α) (table : Table α β) : Prop :=
  ∀ id, plan.Spent g table id

theorem advance_of_once (begins : 0 < plan.passes) (goes : plan.once.advance g false r = some r') :
    plan.advance g false r = some r' := by
  unfold advance at goes ⊢
  by_cases overdue : r.overdue
  · rw [if_pos overdue] at goes
    cases goes
  rw [if_neg overdue] at goes ⊢
  by_cases idle : r.queue.isEmpty
  · rw [if_pos idle] at goes ⊢
    by_cases first : r.pass < plan.once.passes
    · rw [if_pos first] at goes
      rw [if_pos (Nat.lt_of_lt_of_le first begins), goes]
    · rw [if_neg first] at goes
      cases goes
  · rw [if_neg idle] at goes ⊢
    exact goes

theorem Steps.of_once (begins : 0 < plan.passes) (steps : plan.once.Steps g n r r') :
    plan.Steps g n r r' := by
  induction steps with
  | zero r => exact .zero r
  | succ goes _ ih => exact .succ (advance_of_once begins goes) ih

section Ordered
variable [OrderedCost α]

theorem Settled.wins_eq_nil (settled : plan.Settled g r.table) : (plan.wins g r).toList = [] := by
  apply List.eq_nil_iff_forall_not_mem.2
  intro e mem
  have won := OrderedMap.get?_eq_some_iff.2 mem
  obtain ⟨id, _, owner, evaluated⟩ := exists_of_winner won
  have spent := settled id e.2 evaluated
  rw [owner, improves_of_winner won] at spent
  cases spent

theorem Step.of_settled (settled : plan.Settled g r.table) (step : plan.Step g r r') :
    r'.table = r.table ∧ r'.installs = r.installs := by
  cases step with
  | pass => exact ⟨rfl, rfl⟩
  | round => simp [Table.update, settled.wins_eq_nil]

theorem Steps.of_settled (steps : plan.Steps g n r r') (settled : plan.Settled g r.table)
    (punctual : r.overdue = false) : r'.table = r.table ∧ r'.installs = r.installs := by
  induction steps with
  | zero => exact ⟨rfl, rfl⟩
  | succ goes _ ih =>
    have step := Step.of_advance punctual goes
    obtain ⟨table, installs⟩ := step.of_settled settled
    obtain ⟨table', installs'⟩ := ih (table ▸ settled) (step.overdue.trans punctual)
    exact ⟨table'.trans table, installs'.trans installs⟩

/-- The invariant of the queue, at the end of a pass. -/
theorem Steps.settled (careful : plan.Careful) (steps : plan.Steps g n .start r)
    (begun : 0 < r.pass) (idle : r.queue.items = []) : plan.Settled g r.table := by
  intro id
  apply (steps.reached .start rfl).1.spent careful _ (.inl begun)
  rw [idle]
  exact List.not_mem_nil

/-- What a run comes to is settled when its queue is empty for the first time. -/
theorem wholeRun_of_idle (careful : plan.Careful) (ended : (plan.wholeRun g).Over plan.passes)
    (steps : plan.Steps g n .start r) (begun : 0 < r.pass) (idle : r.queue.items = []) :
    (plan.wholeRun g).table = r.table ∧ (plan.wholeRun g).installs = r.installs := by
  obtain ⟨m, le, ends⟩ := exists_endsAfter ended
  obtain ⟨rest, split⟩ := Nat.exists_eq_add_of_le (Nat.le_trans (ends.longest n r steps) le)
  have whole : plan.wholeRun g = plan.unhurried g rest r := by
    rw [wholeRun, split, steps.unhurried_eq]
  -- What is left of the whole run begins with a settled table.
  obtain ⟨_, _, others⟩ := plan.exists_steps g rest r
  rw [whole]
  exact others.of_settled (steps.settled careful begun idle) (steps.reached .start rfl).2

/-- More passes change nothing. -/
theorem wholeRun_of_once (careful : plan.Careful) (begins : 0 < plan.passes)
    (ended : (plan.wholeRun g).Over plan.passes) (ended' : (plan.once.wholeRun g).Over 1) :
    (plan.wholeRun g).table = (plan.once.wholeRun g).table ∧
      (plan.wholeRun g).installs = (plan.once.wholeRun g).installs := by
  obtain ⟨n, _, ends⟩ : ∃ n ≤ plan.once.stepLimit g, plan.once.EndsAfter g n :=
    exists_endsAfter ended'
  exact wholeRun_of_idle careful ended (ends.steps.of_once begins) ended'.done ended'.idle

end Ordered

end Plan

end Extraction
