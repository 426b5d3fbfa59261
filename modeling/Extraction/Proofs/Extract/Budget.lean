import Extraction.Proofs.Extract.Outcome

/-! Time limits. Whatever the looks at the time tell, a run comes to one of two things: a look tells that the time
is up, and nothing is extracted; or none does, and what is extracted is what would be without a limit. Since the
time is looked at before the first node is taken up, a limit of zero leaves no time for any improvement. -/
namespace Extraction
open Std

variable {α β : Type} [Cost α]

/-- Answers a look at the time and puts the answer down. -/
def noting (poll : Nat → Bool) (n : Nat) : StateM (List Bool) Bool := do
  modify fun told => told ++ [poll n]
  return poll n

namespace Plan
variable {plan : Plan α β} {g : EGraph α} {poll : Nat → Bool} {r : Run α β}

/-- The answer that comes before the next step, if there is one. -/
def answers (plan : Plan α β) (poll : Nat → Bool) (r : Run α β) : List Bool :=
  if plan.pollDue r then [poll r.polls] else []

omit [Cost α] in
theorem mem_answers : true ∈ plan.answers poll r ↔ plan.late poll r = true := by
  unfold answers late
  split
  · rw [List.mem_singleton]
    exact eq_comm
  · exact iff_of_false List.not_mem_nil Bool.false_ne_true

theorem run_iterate_succ (plan : Plan α β) (g : EGraph α) (poll : Nat → Bool) (limit : Nat) (r : Run α β)
    (told : List Bool) :
    (plan.iterate g (noting poll) (limit + 1) r).run told =
      match plan.advance g (plan.late poll r) r with
      | none => (r, told ++ plan.answers poll r)
      | some r' => (plan.iterate g (noting poll) limit r').run (told ++ plan.answers poll r) := by
  unfold late answers
  rw [iterate]
  cases plan.pollDue r with
  | false =>
    simp only [Bool.false_eq_true, if_false, List.append_nil, pure_bind]
    cases plan.advance g false r <;> rfl
  | true =>
    simp only [if_true]
    change (match plan.advance g (poll r.polls) r with
      | none => pure r
      | some r' => plan.iterate g (noting poll) limit r').run (told ++ [poll r.polls]) = _
    cases plan.advance g (poll r.polls) r <;> rfl

/-- Where the time is up, the run is over. -/
theorem advance_of_overdue (overdue : r.overdue = true) (late : Bool) : plan.advance g late r = none := by
  rw [advance_eq, if_pos overdue]

theorem timed_of_overdue (overdue : r.overdue = true) (limit : Nat) : plan.timed g poll limit r = r := by
  cases limit with
  | zero => rfl
  | succ limit => rw [timed_succ, advance_of_overdue overdue]

/-- A look that tells that the time is up ends the run. -/
theorem advance_of_late (punctual : r.overdue = false) (late : plan.late poll r = true) :
    ∃ r', plan.advance g true r = some r' ∧ r'.overdue = true := by
  have due : plan.pollDue r = true := by
    by_contra early
    rw [Plan.late, if_neg early] at late
    cases late
  have busy : ¬ r.queue.isEmpty = true := by
    rw [pollDue, Bool.and_eq_true, Bool.not_eq_true'] at due
    exact Bool.eq_false_iff.1 due.1
  rw [advance_eq, if_neg (Bool.eq_false_iff.1 punctual), if_neg busy, due]
  exact ⟨_, rfl, rfl⟩

theorem run_iterate_of_overdue (plan : Plan α β) (g : EGraph α) (poll : Nat → Bool)
    (overdue : r.overdue = true) (limit : Nat) (told : List Bool) :
    ∃ asked, (plan.iterate g (noting poll) limit r).run told = (r, told ++ asked) := by
  cases limit with
  | zero => exact ⟨[], by rw [List.append_nil]; rfl⟩
  | succ limit =>
    rw [run_iterate_succ, advance_of_overdue overdue]
    exact ⟨_, rfl⟩

/-- A run puts down the answers of its looks. It is overdue if one of them tells that the time is up, and goes the
way of a run without looks otherwise. -/
theorem run_iterate (plan : Plan α β) (g : EGraph α) (poll : Nat → Bool) (limit : Nat) {r : Run α β}
    (told : List Bool) (punctual : r.overdue = false) :
    ∃ asked, (plan.iterate g (noting poll) limit r).run told = (plan.timed g poll limit r, told ++ asked) ∧
      ((plan.timed g poll limit r).overdue = true ↔ true ∈ asked) ∧
      (true ∉ asked → plan.timed g poll limit r = plan.timed g (fun _ => false) limit r) := by
  have stays (r : Run α β) (punctual : r.overdue = false) : r.overdue = true ↔ true ∈ ([] : List Bool) := by
    simp [punctual]
  induction limit generalizing r told with
  | zero => exact ⟨[], by rw [List.append_nil]; rfl, stays r punctual, fun _ => rfl⟩
  | succ limit ih =>
    have unasked : plan.late (fun _ => false) r = false := by
      rw [Plan.late]
      split <;> rfl
    rw [run_iterate_succ, timed_succ, timed_succ, unasked]
    cases late : plan.late poll r with
    | true =>
      have told' : true ∈ plan.answers poll r := mem_answers.2 late
      obtain ⟨r', step, overdue⟩ := advance_of_late (g := g) punctual late
      obtain ⟨asked, run⟩ := run_iterate_of_overdue plan g poll overdue limit (told ++ plan.answers poll r)
      rw [step]
      dsimp only
      rw [run, timed_of_overdue overdue, List.append_assoc]
      have up : true ∈ plan.answers poll r ++ asked := List.mem_append_left _ told'
      exact ⟨_, rfl, iff_of_true overdue up, fun quiet => absurd up quiet⟩
    | false =>
      have quiet : true ∉ plan.answers poll r := fun mem => by
        rw [mem_answers, late] at mem
        cases mem
      cases step : plan.advance g false r with
      | none =>
        refine ⟨plan.answers poll r, rfl, iff_of_false (Bool.eq_false_iff.1 punctual) quiet, fun _ => rfl⟩
      | some r' =>
        have kept : r'.overdue = false := (Step.of_advance punctual step).overdue.trans punctual
        obtain ⟨asked, run, overdue, same⟩ := ih (told ++ plan.answers poll r) kept
        dsimp only
        rw [run, List.append_assoc]
        refine ⟨_, rfl, ?_, fun quiet => same fun mem => quiet (List.mem_append_right _ mem)⟩
        rw [List.mem_append]
        exact overdue.trans (or_iff_right quiet).symm

/-- What comes of an extraction hangs on the limit only where the time is up. -/
theorem conclude_of_punctual {roots : List ClassId} {passes limit limit' : Nat} (punctual : r.overdue = false) :
    r.conclude g roots passes limit false = r.conclude g roots passes limit' false := by
  rw [Run.conclude, Run.conclude, punctual]
  rfl

/-- An extraction exceeds its limit if a look tells that the time is up, the last look included, and is one
without a limit otherwise. -/
theorem run_extract (plan : Plan α β) (limit : Nat) (g : EGraph α) (roots : List ClassId) (poll : Nat → Bool) :
    ∃ told, (plan.extract limit g roots (noting poll)).run [] =
        (Id.run (plan.extract limit g roots fun n => pure (poll n)), told) ∧
      (true ∈ told → (Id.run (plan.extract limit g roots fun n => pure (poll n))).selection =
        .error (.budgetExceeded limit)) ∧
      (true ∉ told → ∀ limit', Id.run (plan.extract limit g roots fun n => pure (poll n)) =
        Id.run (plan.extract limit' g roots fun _ => pure false)) := by
  obtain ⟨asked, run, overdue, same⟩ := plan.run_iterate g poll (plan.stepLimit g) (r := .start) [] rfl
  let r := plan.timedRun g poll
  have steps : (plan.extract limit g roots (noting poll)).run [] =
      (do
        let late ← if r.overdue then pure true else noting poll r.polls
        return ⟨r.conclude g roots plan.passes limit late, r.installs.reverse⟩ :
          StateM (List Bool) (Outcome α)).run asked := by
    rw [extract, Plan.run, StateT.run_bind, run]
    rfl
  rw [steps, extract_eq_timedRun]
  cases late : r.overdue with
  | true =>
    have exceeded (last : Bool) : r.conclude g roots plan.passes limit last = .error (.budgetExceeded limit) := by
      rw [Run.conclude, late]
      rfl
    refine ⟨asked, ?_, fun _ => exceeded _, fun quiet => absurd (overdue.1 late) quiet⟩
    change (Outcome.mk (r.conclude g roots plan.passes limit true) _, asked) =
      (Outcome.mk (r.conclude g roots plan.passes limit _) _, asked)
    rw [exceeded, exceeded]
  | false =>
    have quiet : true ∉ asked := fun mem => by
      have up : r.overdue = true := overdue.2 mem
      rw [late] at up
      cases up
    refine ⟨asked ++ [poll r.polls], rfl, fun up => ?_, fun unasked limit' => ?_⟩
    · have last : poll r.polls = true := by simpa [quiet] using up
      change r.conclude g roots plan.passes limit (poll r.polls) = _
      rw [Run.conclude, last, Bool.or_true]
      rfl
    · have last : poll r.polls = false := by simpa [quiet] using unasked
      have whole : r = plan.timedRun g fun _ => false := same quiet
      rw [extract_eq_timedRun, ← whole]
      change Outcome.mk (r.conclude g roots plan.passes limit (poll r.polls)) _ = _
      rw [last, conclude_of_punctual late]

/-- A run in which every look tells that the time is up takes up no node: a look is due before the first one. -/
theorem installs_timed_of_late (limit : Nat) (untouched : r.evaluated = 0) :
    (plan.timed g (fun _ => true) limit r).installs = r.installs := by
  induction limit generalizing r with
  | zero => rfl
  | succ limit ih =>
    rw [timed_succ]
    cases step : plan.advance g (plan.late (fun _ => true) r) r with
    | none => rfl
    | some r' =>
      have next : r'.evaluated = 0 ∧ r'.installs = r.installs := by
        rw [advance_eq] at step
        split at step
        · cases step
        split at step
        · split at step
          · obtain rfl := Option.some.inj step
            exact ⟨untouched, rfl⟩
          · cases step
        · rename_i busy
          have due : plan.pollDue r = true := by
            rw [pollDue, untouched, Bool.eq_false_iff.2 busy]
            cases plan.pace <;> rfl
          rw [Plan.late, due] at step
          obtain rfl := Option.some.inj step
          exact ⟨untouched, rfl⟩
      exact (ih next.1).trans next.2

/-- Where every look tells that the time is up, nothing is extracted and nothing improves. -/
theorem extract_of_late (plan : Plan α β) (limit : Nat) (g : EGraph α) (roots : List ClassId) :
    Id.run (plan.extract limit g roots fun _ => pure true) = ⟨.error (.budgetExceeded limit), []⟩ := by
  have run := plan.extract_eq_timedRun limit g roots fun _ => true
  rw [Run.conclude, Bool.or_true, if_pos rfl, timedRun, installs_timed_of_late _ rfl] at run
  exact run

end Plan

/-- Whatever the looks at the time tell, an extraction exceeds its limit if one of them tells that the time is up,
and is what it would be without a limit otherwise. With a limit of zero every extraction exceeds it, whatever the
clock shows, and nothing improves on the way. -/
theorem Settings.exceeded_or_unlimited (settings : Settings) (g : EGraph α) (roots : List ClassId) :
    (∀ poll : Nat → Bool, ∃ told,
      (settings.run g roots (noting poll)).run [] =
        (Id.run (settings.run g roots fun n => pure (poll n)), told) ∧
      (true ∈ told → (Id.run (settings.run g roots fun n => pure (poll n))).selection =
        .error (.budgetExceeded (settings.timeoutSecs.getD 0))) ∧
      (true ∉ told → ∀ clock : Nat → Nat, Id.run (settings.run g roots fun n => pure (poll n)) =
        Id.run ({ settings with timeoutSecs := none }.run g roots fun n => pure (spent none (clock n))))) ∧
    ∀ clock : Nat → Nat,
      Id.run ({ settings with timeoutSecs := some 0 }.run g roots fun n => pure (spent (some 0) (clock n))) =
        ⟨.error (.budgetExceeded 0), []⟩ := by
  have unlimited (elapsed : Nat) : spent none elapsed = false := rfl
  have up (elapsed : Nat) : spent (some 0) elapsed = true := by simp [spent]
  simp only [unlimited, up]
  unfold run
  constructor
  · intro poll
    cases settings.extractor <;>
      exact (Plan.run_extract _ _ g roots poll).imp fun told run =>
        ⟨run.1, run.2.1, fun quiet _ => run.2.2 quiet _⟩
  · intro _
    cases settings.extractor <;> exact Plan.extract_of_late ..

section Chain
set_option maxRecDepth 100000

/-- Three classes, each but the first above the one before. -/
def chainGraph : EGraph Float :=
  (Draft.ofNodes [((0 : UInt32), ([] : List UInt32), (1.0 : Float)), (1, [0], 1), (2, [1], 1)]
    [2]).toGraph.toOption.get (by decide +kernel)

/-- Looks at the time before each node. -/
def watchful : Settings := { extractor := .parallelGreedyDag, batchSize := 1, timeoutSecs := some 5 }

/-- If the third look tells that the time is up, two classes have improved and nothing is extracted. If none does,
what is extracted is what would be without a limit. -/
theorem chainGraph_exceeded_or_unlimited :
    (∃ o : Outcome Float,
      Id.run (watchful.run chainGraph [⟨2⟩] fun n => pure (decide (n = 2))) = o ∧
      o.selection = .error (.budgetExceeded 5) ∧ o.installs.map Install.eclass = [⟨0⟩, ⟨1⟩]) ∧
    ∃ o : Outcome Float,
      Id.run (watchful.run chainGraph [⟨2⟩] fun _ => pure false) = o ∧
      o = Id.run ({ watchful with timeoutSecs := none }.run chainGraph [⟨2⟩] fun n => pure (spent none n)) ∧
      o.selection.toOption.map (fun s => s.choices.values) = some [⟨⟨0⟩, 0⟩, ⟨⟨1⟩, 0⟩, ⟨⟨2⟩, 0⟩] := by
  have either := (watchful.exceeded_or_unlimited chainGraph [⟨2⟩]).1
  constructor
  · obtain ⟨_, run, exceeded, _⟩ := either fun n => decide (n = 2)
    have up : true ∈ ((watchful.run chainGraph [⟨2⟩] (noting fun n => decide (n = 2))).run []).2 := by
      decide +kernel
    rw [run] at up
    exact ⟨_, rfl, exceeded up, by decide +kernel⟩
  · obtain ⟨_, run, _, unlimited⟩ := either fun _ => false
    have quiet : true ∉ ((watchful.run chainGraph [⟨2⟩] (noting fun _ => false)).run []).2 := by decide +kernel
    rw [run] at quiet
    exact ⟨_, rfl, unlimited quiet id, by decide +kernel⟩

end Chain

end Extraction
