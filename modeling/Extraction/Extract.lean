import Extraction.Relaxation.Bill
import Extraction.Relaxation.Measure
import Extraction.Relaxation.Run
import Extraction.Settings

/-! Extraction: a run according to the settings, and the selection that comes of it. -/
namespace Extraction
open Std

variable {α β : Type} [Cost α]

inductive ExtractError where
  | uncoverableRoots (roots : List ClassId)
  | budgetExceeded (limitSecs : Nat)
  | settings (error : SettingsError)
  /-- The run took more steps than any run takes. -/
  | unsettled

def ExtractError.message : ExtractError → String
  | uncoverableRoots roots =>
    "no acyclic realization for root classes [" ++
      String.intercalate ", " (roots.map ClassId.text) ++ "]"
  | budgetExceeded limit =>
    let text := if limit = 0 then "0ns" else toString limit ++ "s"
    "extraction budget of " ++ text ++ " exceeded"
  | settings e => e.message
  | unsettled => "extraction did not settle"

/-- What an extraction gives: a selection or a reason why there is none, and the improvements made on the
way in their order. -/
structure Outcome (α : Type) where
  selection : Except ExtractError (Selection α)
  installs : List (Install α)

/-- Whether `elapsed` nanoseconds use a limit up. -/
def spent (limitSecs : Option Nat) (elapsed : Nat) : Bool :=
  limitSecs.any fun secs => secs * 1000000000 ≤ elapsed

/-- The selection of the best realizations, in the order of the classes of the graph. -/
def Run.selection (g : EGraph α) (r : Run α β) : Selection α :=
  g.classes.foldl (fun s c =>
    match r.table.choice? c with
    | some id => s.choose c id
    | none => s) ⟨∅, r.candidates⟩

def Run.uncovered (roots : List ClassId) (r : Run α β) : List ClassId :=
  (roots.filter fun c => !r.table.contains c).eraseDups

/-- Judges a run. `late` is what a last look at the time tells. -/
def Run.conclude (g : EGraph α) (roots : List ClassId) (passes limitSecs : Nat) (late : Bool)
    (r : Run α β) : Except ExtractError (Selection α) :=
  if r.overdue || late then .error (.budgetExceeded limitSecs)
  else if r.pass < passes || !r.queue.isEmpty then .error .unsettled
  else if !(r.uncovered roots).isEmpty then .error (.uncoverableRoots (r.uncovered roots))
  else .ok (r.selection g)

namespace Plan

/-- The greedy extraction that bills shared classes once. -/
def greedy (settings : Settings) (pace : Pace) : Plan α (Bill α) :=
  ⟨billEvaluation settings.pruneSingleChild, max settings.passes 1, pace⟩

def bottomUp : Plan α Unit := ⟨measureEvaluation treeMeasure, 1, .single⟩

def astDepth : Plan α Unit := ⟨measureEvaluation depthMeasure, 1, .single⟩

def extract {m : Type → Type} [Monad m] (plan : Plan α β) (limitSecs : Nat) (g : EGraph α)
    (roots : List ClassId) (poll : Nat → m Bool) : m (Outcome α) := do
  let r ← plan.run g poll
  let late ← if r.overdue then pure true else poll r.polls
  return ⟨r.conclude g roots plan.passes limitSecs late, r.installs.reverse⟩

end Plan

namespace Settings

/-- Extracts whatever the settings; `poll` answers each look at the time. -/
def run {m : Type → Type} [Monad m] (settings : Settings) (g : EGraph α) (roots : List ClassId)
    (poll : Nat → m Bool) : m (Outcome α) :=
  let limit := settings.timeoutSecs.getD 0
  match settings.extractor with
  | .greedyDag => (Plan.greedy settings .single).extract limit g roots poll
  | .parallelGreedyDag =>
    (Plan.greedy settings (.rounds (max settings.batchSize 1))).extract limit g roots poll
  | .bottomUp => Plan.bottomUp.extract limit g roots poll
  | .astDepth => Plan.astDepth.extract limit g roots poll

def extract {m : Type → Type} [Monad m] (settings : Settings) (g : EGraph α)
    (roots : List ClassId) (poll : Nat → m Bool) : m (Except ExtractError (Selection α)) :=
  match settings.validate with
  | .error e => pure (.error (.settings e))
  | .ok () => Outcome.selection <$> settings.run g roots poll

end Settings

end Extraction
