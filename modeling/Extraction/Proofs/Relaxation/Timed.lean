import Extraction.Extract
import Extraction.Proofs.Relaxation.Steps
import Mathlib.Data.Option.Basic
import Mathlib.Logic.Relation

/-! Runs whose looks at the time may tell anything. Each step is one of a run that is never late, except
that a look may end the run; so the table of every run is that of one that is never late. Two runs that go
on alike whatever has happened end alike. -/
namespace Extraction
open Std Relation

variable {α β : Type} [Cost α]

namespace Plan

/-- One step leads from a run to the other, whatever a look at the time tells. -/
def Goes (plan : Plan α β) (g : EGraph α) (r r' : Run α β) : Prop :=
  ∃ late, plan.advance g late r = some r'

/-- What the look before the next step tells, if there is one. -/
def late (plan : Plan α β) (poll : Nat → Bool) (r : Run α β) : Bool :=
  if plan.pollDue r then poll r.polls else false

/-- The run that goes on from `r` for `limit` steps, with the answers of `poll` to its looks at the time. -/
def timed (plan : Plan α β) (g : EGraph α) (poll : Nat → Bool) (limit : Nat) (r : Run α β) :
    Run α β :=
  Id.run (plan.iterate g (fun n => pure (poll n)) limit r)

/-- The whole run with the answers of `poll` to its looks at the time. -/
def timedRun (plan : Plan α β) (g : EGraph α) (poll : Nat → Bool) : Run α β :=
  plan.timed g poll (plan.stepLimit g) .start

variable {plan plan' : Plan α β} {g : EGraph α} {poll poll' : Nat → Bool} {r r' : Run α β}

theorem timed_succ (plan : Plan α β) (g : EGraph α) (poll : Nat → Bool) (limit : Nat)
    (r : Run α β) :
    plan.timed g poll (limit + 1) r =
      match plan.advance g (plan.late poll r) r with
      | none => r
      | some r' => plan.timed g poll limit r' := by
  unfold timed late
  rw [iterate]
  cases plan.pollDue r with
  | false => cases plan.advance g false r <;> rfl
  | true => cases advanced : plan.advance g (poll r.polls) r <;> simp [advanced]

theorem goes_timed (plan : Plan α β) (g : EGraph α) (poll : Nat → Bool) (limit : Nat)
    (r : Run α β) : ReflTransGen (plan.Goes g) r (plan.timed g poll limit r) := by
  induction limit generalizing r with
  | zero => exact .refl
  | succ limit ih =>
    rw [timed_succ]
    cases advanced : plan.advance g (plan.late poll r) r with
    | none => exact .refl
    | some next => exact .head ⟨_, advanced⟩ (ih next)

/-- A step either leads on or finds that the time is up. -/
theorem Goes.step_or_overdue (goes : plan.Goes g r r') :
    r.overdue = false ∧ (plan.Step g r r' ∨ ∃ polls, r' = { r with polls, overdue := true }) := by
  obtain ⟨late, advanced⟩ := goes
  have punctual : r.overdue = false := by
    rw [Bool.eq_false_iff]
    intro overdue
    simp [advance, overdue] at advanced
  refine ⟨punctual, ?_⟩
  rw [advance_eq, if_neg (by simp [punctual])] at advanced
  split at advanced
  · rename_i idle
    split at advanced
    · rename_i more
      obtain rfl := Option.some.inj advanced
      exact .inl (.pass (List.isEmpty_iff.1 idle) more)
    · cases advanced
  rename_i busy
  split at advanced
  · obtain rfl := Option.some.inj advanced
    exact .inr ⟨_, rfl⟩
  · obtain rfl := Option.some.inj advanced
    exact .inl (.round _ fun none => busy (List.isEmpty_iff.2 none))

/-- Apart from its looks at the time, every run is one that is never late. -/
theorem exists_reached (goes : ReflTransGen (plan.Goes g) .start r) :
    ∃ polls, plan.Reached g { r with polls, overdue := false } := by
  suffices both : (r.overdue = false → plan.Reached g r) ∧
      ∃ polls, plan.Reached g { r with polls, overdue := false } from both.2
  induction goes with
  | refl => exact ⟨fun _ => .start, 0, .start⟩
  | @tail r r' _ step ih =>
    obtain ⟨punctual, next | ⟨polls, rfl⟩⟩ := step.step_or_overdue
    · have reached := (ih.1 punctual).step next
      have kept : { r' with polls := r'.polls, overdue := false } = r' := by
        rw [← next.overdue.trans punctual]
      exact ⟨fun _ => reached, r'.polls, by rwa [kept]⟩
    · exact ⟨(nomatch ·), ih.2⟩

theorem exists_reached_timedRun (plan : Plan α β) (g : EGraph α) (poll : Nat → Bool) :
    ∃ polls, plan.Reached g { plan.timedRun g poll with polls, overdue := false } :=
  exists_reached (plan.goes_timed g poll (plan.stepLimit g) .start)

/-- Runs that take related steps from related places come to related ends. -/
theorem timed_related {R : Run α β → Run α β → Prop}
    (step : ∀ {r r'}, R r r' → Option.Rel R (plan.advance g (plan.late poll r) r)
      (plan'.advance g (plan'.late poll' r') r'))
    (limit : Nat) (related : R r r') :
    R (plan.timed g poll limit r) (plan'.timed g poll' limit r') := by
  induction limit generalizing r r' with
  | zero => exact related
  | succ limit ih =>
    rw [timed_succ, timed_succ]
    have next := step related
    cases first : plan.advance g (plan.late poll r) r with
    | none =>
      rw [first] at next
      cases second : plan'.advance g (plan'.late poll' r') r' with
      | none => exact related
      | some _ => rw [second] at next; cases next
    | some q =>
      rw [first] at next
      cases second : plan'.advance g (plan'.late poll' r') r' with
      | none => rw [second] at next; cases next
      | some q' =>
        rw [second] at next
        cases next with
        | some related => exact ih related

/-- What comes of a run and of a last look at the time. -/
theorem extract_eq_timedRun (plan : Plan α β) (limit : Nat) (g : EGraph α) (roots : List ClassId)
    (poll : Nat → Bool) :
    Id.run (plan.extract limit g roots fun n => pure (poll n)) =
      ⟨(plan.timedRun g poll).conclude g roots plan.passes limit (poll (plan.timedRun g poll).polls),
        (plan.timedRun g poll).installs.reverse⟩ := by
  have whole : plan.run g (fun n => (pure (poll n) : Id Bool)) = pure (plan.timedRun g poll) := rfl
  simp only [extract, whole, pure_bind]
  cases overdue : (plan.timedRun g poll).overdue with
  | false => rfl
  | true => simp [Run.conclude, overdue]

end Plan

end Extraction
