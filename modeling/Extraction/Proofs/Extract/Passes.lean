import Extraction.Proofs.Cost.Rational
import Extraction.Proofs.Extract.Outcome
import Extraction.Proofs.Relaxation.Ending

/-! Passes after the first. They find nothing better, so that an extraction in several passes makes the
improvements and the choices of an extraction in one, and fails as it does. -/
namespace Extraction
open Std

variable {α β : Type} [Cost α]

/-- Two extractions make the same improvements and the same choices or fail alike. -/
structure Outcome.Agrees (o o' : Outcome α) : Prop where
  installs : o.installs = o'.installs
  choices : o.selection.map Selection.choices = o'.selection.map Selection.choices

/-- The choices of a run depend on its table alone. -/
theorem Run.choices_selection {g : EGraph α} {r r' : Run α β} (same : r.table = r'.table) :
    (r.selection g).choices = (r'.selection g).choices := by
  apply OrderedMap.ext
  rw [toList_selection, toList_selection, same]

namespace Plan

theorem extract_agrees_once [OrderedCost α] {plan : Plan α β} (careful : plan.Careful)
    {g : EGraph α} (begins : 0 < plan.passes) (ended : (plan.wholeRun g).Over plan.passes)
    (ended' : (plan.once.wholeRun g).Over 1) (limit : Nat) (roots : List ClassId) :
    Outcome.Agrees (Id.run (plan.extract limit g roots fun _ => pure false))
      (Id.run (plan.once.extract limit g roots fun _ => pure false)) := by
  obtain ⟨table, installs⟩ := wholeRun_of_once careful begins ended ended'
  constructor
  · rw [installs_of_extract, installs_of_extract, installs]
  · have uncovered : (plan.wholeRun g).uncovered roots = (plan.once.wholeRun g).uncovered roots := by
      rw [Run.uncovered, Run.uncovered, table]
    rw [extract_eq plan limit g roots ended, extract_eq plan.once limit g roots ended', uncovered]
    split
    · exact congrArg Except.ok (Run.choices_selection table)
    · rfl

end Plan

namespace Settings

/-- The outcome of an extraction in so many passes without a time limit. -/
def inPasses (settings : Settings) (g : EGraph α) (roots : List ClassId) (passes : Nat) :
    Outcome α :=
  Id.run ({ settings with passes }.run g roots fun _ => pure false)

theorem greedy_agrees_once [OrderedCost α] (settings : Settings) {pace : Pace} (size : 0 < pace.size)
    (g : EGraph α) (limit : Nat) (roots : List ClassId) (passes : Nat) :
    Outcome.Agrees
      (Id.run ((Plan.greedy { settings with passes } pace).extract limit g roots fun _ => pure false))
      (Id.run ((Plan.greedy { settings with passes := 1 } pace).extract limit g roots
        fun _ => pure false)) := by
  have begins : 0 < max passes 1 := by omega
  have careful : (Plan.byBills (α := α) settings.pruneSingleChild (max passes 1) pace).Careful :=
    Plan.careful_byBills
  exact Plan.extract_agrees_once careful begins (Plan.over_byBills _ _ size g)
    (Plan.over_byBills _ _ size g) limit roots

/-- The first pass of the greedy extraction comes to an end, and then no node evaluates to anything
below the total of its class. So however many passes there are, an extraction makes the same improvements
and the same choices or fails alike. -/
theorem passes_idle [OrderedCost α] (settings : Settings) (g : EGraph α) (roots : List ClassId) :
    let plan := Plan.greedy settings .single
    (∃ n r, plan.Steps g n .start r ∧ r.pass = 1 ∧ r.queue.items = []) ∧
      (∀ n r, plan.Steps g n .start r → r.pass = 1 → r.queue.items = [] →
        r.table = (plan.wholeRun g).table ∧
          ∀ id entry, plan.evaluateIn g r.table id = .candidate entry →
            ∃ total, r.table.total? id.owner = some total ∧ ¬ entry.total < total) ∧
        ∀ passes, (settings.inPasses g roots passes).Agrees (settings.inPasses g roots 1) := by
  intro plan
  have one : 0 < Pace.single.size := Nat.one_pos
  have begins : 0 < plan.passes := Nat.lt_of_lt_of_le Nat.one_pos (Nat.le_max_right _ _)
  have careful : plan.Careful := Plan.careful_byBills
  have ended : (plan.wholeRun g).Over plan.passes := Plan.over_byBills _ _ one g
  refine ⟨?_, ?_, ?_⟩
  · obtain ⟨n, _, ends⟩ : ∃ n ≤ plan.once.stepLimit g, plan.once.EndsAfter g n :=
      Plan.exists_endsAfter (Plan.over_byBills settings.pruneSingleChild 1 one g)
    exact ⟨n, _, ends.steps.of_once begins, ends.done, ends.idle⟩
  · intro n r steps first idle
    have begun : 0 < r.pass := by omega
    refine ⟨(Plan.wholeRun_of_idle careful ended steps begun idle).1.symm, ?_⟩
    intro id entry evaluated
    exact Cost.not_improves_iff.1 (steps.settled careful begun idle id entry evaluated)
  · intro passes
    unfold inPasses run
    cases settings.extractor with
    | greedyDag => exact settings.greedy_agrees_once one g _ roots passes
    | parallelGreedyDag =>
      exact settings.greedy_agrees_once (Pace.size_rounds_pos settings.batchSize) g _ roots passes
    | bottomUp | astDepth => exact ⟨rfl, rfl⟩

end Settings

section Late
set_option maxRecDepth 100000

/-- A graph in which class 1 improves after class 0 was billed above it. -/
def lateGraph : EGraph ℚ≥0 :=
  (Draft.ofNodes [((0 : UInt32), [(1 : UInt32)], (1 : ℚ≥0)), (1, [], .divNat 5 1), (1, [2], 1),
    (2, [3, 3], .divNat 1 2), (3, [], .divNat 1 3), (2, [0], 0)] [0]).toGraph.toOption.get
      (by decide +kernel)

def inPairs : Settings := { extractor := .parallelGreedyDag, batchSize := 2 }

/-- Its class 0 has its least total when the first pass ends, and further rounds improve nothing. -/
theorem lateGraph_improves :
    (∃ n r, (Plan.greedy inPairs .single).Steps lateGraph n .start r ∧ r.queue.items = [] ∧
      r.table.total? ⟨0⟩ = some (17 / 6 : ℚ≥0)) ∧
      (inPairs.inPasses lateGraph [⟨0⟩] 1).installs.length = 6 ∧
        (inPairs.inPasses lateGraph [⟨0⟩] 3).installs.length = 6 := by
  have total : ((Plan.greedy inPairs .single).wholeRun lateGraph).table.total? ⟨0⟩ =
      some (17 / 6 : ℚ≥0) := by decide +kernel
  have once : (inPairs.inPasses lateGraph [⟨0⟩] 1).installs.length = 6 := by decide +kernel
  obtain ⟨⟨n, r, steps, first, idle⟩, settled, agree⟩ :=
    Settings.passes_idle inPairs lateGraph [⟨0⟩]
  refine ⟨⟨n, r, steps, idle, ?_⟩, once, ?_⟩
  · rw [(settled n r steps first idle).1, total]
  · rw [(agree 3).installs, once]

end Late

end Extraction
