import Extraction.Proofs.Extract.Outcome
import Extraction.Proofs.Relaxation.Ending
import Extraction.Proofs.Relaxation.Timed

/-! Rounds of one node. The pace of a run shows in the size of its batches and in when it looks at the time,
and in nothing else; so without a time limit, rounds of one node come to what the nodes come to one at a
time. -/
namespace Extraction
open Std

variable {α β : Type} [Cost α]

namespace Plan

def atPace (plan : Plan α β) (pace : Pace) : Plan α β := { plan with pace }

variable {plan : Plan α β} {pace : Pace} {g : EGraph α} {r r' : Run α β}

theorem round_atPace (size : pace.size = plan.pace.size) (g : EGraph α) (r : Run α β)
    (polls looked looked' : Nat) :
    (plan.atPace pace).round g looked' { r with polls } =
      { plan.round g looked r with polls := looked' } := by
  simp only [round, wins, batch, atPace, size]
  rfl

/-- Punctual runs that differ in their looks at the time at most. -/
structure Paced (r r' : Run α β) : Prop where
  punctual : r.overdue = false
  alike : ∃ polls, r' = { r with polls }

/-- A step at another pace with batches of the same size leads to the same place. -/
theorem Paced.advance (size : pace.size = plan.pace.size) (paced : Paced r r') :
    Option.Rel Paced (plan.advance g false r) ((plan.atPace pace).advance g false r') := by
  obtain ⟨punctual, polls, rfl⟩ := paced
  obtain ⟨stops, ended⟩ | ⟨next, goes, step⟩ := advance_eq_none_or_step plan g punctual
  · have ended' : Run.Over (plan.atPace pace).passes { r with polls } := ⟨ended.idle, ended.done⟩
    rw [stops, stops_of_over _ g ended']
    exact .none
  obtain ⟨_, ended⟩ | ⟨next', goes', step'⟩ :=
    advance_eq_none_or_step (r := { r with polls }) (plan.atPace pace) g punctual
  · have stops : plan.advance g false r = none := stops_of_over plan g ⟨ended.idle, ended.done⟩
    cases stops.symm.trans goes
  rw [goes, goes']
  refine .some ⟨step.overdue.trans punctual, ?_⟩
  cases step with
  | pass idle more =>
    cases step' with
    | pass => exact ⟨polls, rfl⟩
    | round _ busy => exact absurd idle busy
  | round looked busy =>
    cases step' with
    | pass idle => exact absurd idle busy
    | round looked' => exact ⟨looked', round_atPace size g r polls looked looked'⟩

theorem wholeRun_atPace (size : pace.size = plan.pace.size) (g : EGraph α) :
    ∃ polls, (plan.atPace pace).wholeRun g = { plan.wholeRun g with polls } := by
  have step : ∀ {r r' : Run α β}, Paced r r' →
      Option.Rel Paced (plan.advance g (plan.late (fun _ => false) r) r)
        ((plan.atPace pace).advance g ((plan.atPace pace).late (fun _ => false) r') r') := by
    intro r r' paced
    simp only [late, ite_self]
    exact paced.advance size
  have start : Paced (.start : Run α β) .start := ⟨rfl, 0, rfl⟩
  exact (timed_related step (plan.stepLimit g) start).alike

/-- Batches of the same size make for the same extraction. -/
theorem extract_atPace (size : pace.size = plan.pace.size) (limit : Nat) (g : EGraph α)
    (roots : List ClassId) :
    Id.run ((plan.atPace pace).extract limit g roots fun _ => pure false) =
      Id.run (plan.extract limit g roots fun _ => pure false) := by
  obtain ⟨polls, same⟩ := plan.wholeRun_atPace size g
  rw [extract_eq_wholeRun, extract_eq_wholeRun, same]
  rfl

end Plan

/-- Without a time limit, the greedy extraction in rounds of one node gives the outcome of the greedy
extraction of one node after the other: the same improvements, choices and candidate costs in the same
order, or the same uncoverable roots. -/
theorem Settings.unit_rounds_eq (settings : Settings) (g : EGraph α) (roots : List ClassId) :
    Id.run ({ settings with extractor := .parallelGreedyDag, batchSize := 1 }.run g roots
        fun _ => pure false) =
      Id.run ({ settings with extractor := .greedyDag }.run g roots fun _ => pure false) := by
  have size : (Pace.rounds 1).size = (Plan.greedy (α := α) settings .single).pace.size := rfl
  exact Plan.extract_atPace size _ g roots

section Revised
set_option maxRecDepth 100000

/-- A graph whose class 0 has a dear leaf and a cheaper node above a leaf, with class 1 above it. -/
def revisedGraph : EGraph Float :=
  (Draft.ofNodes [((0 : UInt32), ([] : List UInt32), (8.0 : Float)), (0, [2], 1), (1, [0], 1), (2, [], 1)]
    [1]).toGraph.toOption.get (by decide +kernel)

/-- Either way the classes 0 and 1 improve a second time, and the cheaper node is chosen. -/
theorem revisedGraph_unit_rounds : ∃ o : Outcome Float,
    Id.run (({ extractor := .parallelGreedyDag, batchSize := 1 } : Settings).run revisedGraph [⟨1⟩]
      fun _ => pure false) = o ∧
    Id.run (({} : Settings).run revisedGraph [⟨1⟩] fun _ => pure false) = o ∧
    o.installs.map (fun i => (i.eclass, i.after)) =
      [(⟨0⟩, 8), (⟨2⟩, 1), (⟨1⟩, 9), (⟨0⟩, 2), (⟨1⟩, 3)] ∧
    o.selection.toOption.map (fun s => s.choices.toList) =
      some [(⟨0⟩, ⟨⟨0⟩, 1⟩), (⟨1⟩, ⟨⟨1⟩, 0⟩), (⟨2⟩, ⟨⟨2⟩, 0⟩)] :=
  ⟨_, Settings.unit_rounds_eq {} revisedGraph [⟨1⟩], rfl, by decide +kernel, by decide +kernel⟩

end Revised

end Extraction
