import Extraction.Proofs.Extract.Passes
import Extraction.Proofs.Relaxation.Shortcut

/-! Extraction with and without the shortcut for single children. Where sums are exact, the two go side by
side whatever they are told about the time; they make the same improvements and end with the same choices
or the same error. Only what they tell about the cost of nodes that were turned away is not the same. -/
namespace Extraction
open Std Relation

variable {α β : Type} [Cost α]

/-- Runs that differ in their records at most are judged alike. -/
theorem Run.conclude_of_alike {r r' : Run α β} (alike : r.AlikeButRecords r') (g : EGraph α)
    (roots : List ClassId) (passes limit : Nat) (late : Bool) :
    (r.conclude g roots passes limit late).map Selection.choices =
      (r'.conclude g roots passes limit late).map Selection.choices := by
  obtain ⟨candidates, rfl⟩ := alike
  have choices : (r.selection g).choices = (Run.selection g { r with candidates }).choices :=
    choices_selection rfl
  have bare : Run.uncovered roots { r with candidates } = r.uncovered roots := rfl
  simp only [conclude, bare]
  generalize r.uncovered roots = bare
  split
  · rfl
  split
  · rfl
  cases bare with
  | nil => exact congrArg Except.ok choices
  | cons => rfl

namespace Plan
variable [ExactCost α] {passes : Nat} {pace : Pace} {g : EGraph α} {r r' : Run α (Bill α)}

/-- Where a run with the shortcut and a run without it stand after as many steps. -/
structure Abreast (passes : Nat) (pace : Pace) (g : EGraph α) (r r' : Run α (Bill α)) : Prop where
  reached : ReflTransGen ((byBills true passes pace).Goes g) .start r
  alike : r.AlikeButRecords r'

theorem Abreast.advance (abreast : Abreast passes pace g r r') (poll : Nat → Bool) :
    Option.Rel (Abreast passes pace g)
      ((byBills true passes pace).advance g ((byBills true passes pace).late poll r) r)
      ((byBills false passes pace).advance g ((byBills false passes pace).late poll r') r') := by
  obtain ⟨goes, alike⟩ := abreast
  have passes' : (byBills (α := α) false passes pace).passes =
    (byBills (α := α) true passes pace).passes := rfl
  have pace' : (byBills (α := α) false passes pace).pace = (byBills (α := α) true passes pace).pace :=
    rfl
  have wins : (byBills false passes pace).wins g r = (byBills true passes pace).wins g r := by
    obtain ⟨_, reached⟩ := exists_reached goes
    exact (winners_of_shortcut reached.totalled _).symm
  rw [late_of_alike pace' alike]
  have next := advance_of_alike passes' pace' wins alike ((byBills true passes pace).late poll r)
  generalize advanced : (byBills true passes pace).advance g _ r = ahead at next ⊢
  generalize (byBills false passes pace).advance g _ r' = ahead' at next ⊢
  cases next with
  | none => exact .none
  | some alike' => exact .some ⟨goes.tail ⟨_, advanced⟩, alike'⟩

/-- The shortcut changes neither the improvements nor the choices. -/
theorem extract_of_shortcut (passes : Nat) (pace : Pace) (limit : Nat) (g : EGraph α)
    (roots : List ClassId) (poll : Nat → Bool) :
    Outcome.Agrees
      (Id.run ((byBills true passes pace).extract limit g roots fun n => pure (poll n)))
      (Id.run ((byBills false passes pace).extract limit g roots fun n => pure (poll n))) := by
  have start : Abreast passes pace g .start .start := ⟨.refl, _, rfl⟩
  have alike : ((byBills true passes pace).timedRun g poll).AlikeButRecords
      ((byBills false passes pace).timedRun g poll) :=
    (timed_related (fun abreast => abreast.advance poll) _ start).alike
  have judged := Run.conclude_of_alike alike g roots passes limit
  rw [extract_eq_timedRun, extract_eq_timedRun]
  obtain ⟨candidates, same⟩ := alike
  constructor
  · rw [same]
  · have polls : ((byBills false passes pace).timedRun g poll).polls =
        ((byBills true passes pace).timedRun g poll).polls := by rw [same]
    rw [polls]
    exact judged _

end Plan

/-- With exact costs, a greedy extraction with the shortcut for single children makes the improvements of
one without it, in their order, and ends with the same choices or the same error, one node at a time or in
rounds and whatever the looks at the time tell. -/
theorem Settings.shortcut_agrees [ExactCost α] (settings : Settings) (g : EGraph α)
    (roots : List ClassId) (poll : Nat → Bool) :
    Outcome.Agrees
      (Id.run ({ settings with pruneSingleChild := true }.run g roots fun n => pure (poll n)))
      (Id.run ({ settings with pruneSingleChild := false }.run g roots fun n => pure (poll n))) := by
  unfold run
  cases settings.extractor with
  | greedyDag => exact Plan.extract_of_shortcut _ .single _ g roots poll
  | parallelGreedyDag => exact Plan.extract_of_shortcut _ (.rounds _) _ g roots poll
  | bottomUp | astDepth => exact ⟨rfl, rfl⟩

section Late
set_option maxRecDepth 100000

/-- The node that puts class 2 above the root is turned away by the shortcut and costs 6 otherwise; either way
there are six improvements. -/
theorem lateGraph_shortcut :
    let outcome (prune : Bool) : Outcome ℚ≥0 :=
      Id.run ({ pruneSingleChild := prune : Settings }.run lateGraph [⟨0⟩] fun _ => pure false)
    let recorded (prune : Bool) := (outcome prune).selection.toOption.bind fun s =>
      s.candidates.get? ⟨⟨2⟩, 1⟩
    recorded true = some none ∧ recorded false = some (some 6) ∧
      (outcome true).installs.length = 6 ∧ (outcome false).installs.length = 6 := by
  intro outcome recorded
  have six : (outcome true).installs.length = 6 := by decide +kernel
  have agree : (outcome true).Agrees (outcome false) :=
    Settings.shortcut_agrees {} lateGraph [⟨0⟩] fun _ => false
  refine ⟨by decide +kernel, by decide +kernel, six, ?_⟩
  rw [← agree.installs, six]

end Late

end Extraction
