import Extraction.Extract
import Extraction.Proofs.Relaxation.Round

/-! Runs that are never late. Such a run begins passes and goes through rounds until nothing is queued
and no pass is to come; what every step makes smaller bounds how many steps there are. -/
namespace Extraction
open Std

variable {α β : Type} [Cost α]

theorem foldl_mul_pos {numbers : List Nat} (positive : ∀ n ∈ numbers, 0 < n) {a : Nat} (ha : 0 < a) :
    0 < numbers.foldl (· * ·) a := by
  induction numbers generalizing a with
  | nil => exact ha
  | cons n numbers ih =>
    obtain ⟨hn, others⟩ := List.forall_mem_cons.1 positive
    exact ih others (Nat.mul_pos ha hn)

namespace EGraph

/-- The number of ways to leave out classes and pick a node for each other. -/
def ways (g : EGraph α) : Nat :=
  (g.classes.map fun c => (g.membersOf c).length + 1).foldl (· * ·) 1

theorem ways_pos (g : EGraph α) : 0 < g.ways := by
  refine foldl_mul_pos ?_ Nat.one_pos
  intro n mem
  obtain ⟨c, _, rfl⟩ := List.mem_map.1 mem
  exact Nat.succ_pos _

end EGraph

/-- Nothing is queued and no pass is to come. -/
structure Run.Over (passes : Nat) (r : Run α β) : Prop where
  idle : r.queue.items = []
  done : passes ≤ r.pass

namespace Plan

theorem stepLimit_eq (plan : Plan α β) (g : EGraph α) : plan.stepLimit g =
    plan.passes * (g.nodes.size + 1) + g.nodes.size * g.classes.length * g.ways := rfl

/-- The nodes that the next round takes up. -/
def batch (plan : Plan α β) (r : Run α β) : List NodeId := r.queue.items.take plan.pace.size

omit [Cost α] in
theorem not_mem_items {plan : Plan α β} {r : Run α β} {id : NodeId} (untaken : id ∉ plan.batch r)
    (left : id ∉ r.queue.items.drop plan.pace.size) : id ∉ r.queue.items := by
  rw [← List.take_append_drop plan.pace.size r.queue.items, List.mem_append, not_or]
  exact ⟨untaken, left⟩

/-- The realizations that the next round puts in the table. -/
def wins (plan : Plan α β) (g : EGraph α) (r : Run α β) : OrderedMap ClassId (Entry α β) :=
  plan.winners g r.table (plan.batch r)

/-- A run after one more round. -/
def round (plan : Plan α β) (g : EGraph α) (polls : Nat) (r : Run α β) : Run α β :=
  { r with
    table := r.table.update (plan.wins g r)
    queue := (r.queue.popBatch plan.pace.size).2.insertMany ((plan.wins g r).keys.flatMap g.parents)
    candidates := plan.recorded g r.table r.candidates (plan.batch r)
    evaluated := r.evaluated + (plan.batch r).length
    polls := polls
    installs := ((plan.wins g r).toList.map fun e =>
      (⟨e.1, r.table.total? e.1, e.2.total⟩ : Install α)).reverse ++ r.installs }

@[simp] theorem round_pass (plan : Plan α β) (g : EGraph α) (polls : Nat) (r : Run α β) :
    (plan.round g polls r).pass = r.pass := rfl

@[simp] theorem round_table (plan : Plan α β) (g : EGraph α) (polls : Nat) (r : Run α β) :
    (plan.round g polls r).table = r.table.update (plan.wins g r) := rfl

@[simp] theorem round_installs (plan : Plan α β) (g : EGraph α) (polls : Nat) (r : Run α β) :
    (plan.round g polls r).installs = ((plan.wins g r).toList.map fun e =>
      (⟨e.1, r.table.total? e.1, e.2.total⟩ : Install α)).reverse ++ r.installs := rfl

theorem mem_items_round {plan : Plan α β} {g : EGraph α} {polls : Nat} {r : Run α β}
    (sound : r.queue.Sound) {id : NodeId} : id ∈ (plan.round g polls r).queue.items ↔
      id ∈ r.queue.items.drop plan.pace.size ∨ ∃ c ∈ (plan.wins g r).keys, id ∈ g.parents c := by
  rw [← List.mem_flatMap]
  exact Worklist.mem_insertMany (sound.popBatch _)

theorem prefix_items_round (plan : Plan α β) (g : EGraph α) (polls : Nat) {r : Run α β}
    (sound : r.queue.Sound) :
    r.queue.items.drop plan.pace.size <+: (plan.round g polls r).queue.items :=
  Worklist.prefix_insertMany (sound.popBatch _) _

/-- A round without winners only takes nodes from the queue. -/
theorem items_round {plan : Plan α β} {g : EGraph α} {r : Run α β}
    (none : (plan.wins g r).toList = []) (polls : Nat) :
    (plan.round g polls r).queue.items = r.queue.items.drop plan.pace.size := by
  simp only [round, OrderedMap.keys, none]
  rfl

theorem work_eq_round (plan : Plan α β) (g : EGraph α) (r : Run α β) :
    plan.work g r = plan.round g r.polls r := by
  rw [work_eq_takeUpBatch, takeUpBatch_eq]
  rfl

/-- What a step does: nothing if the run is over, a pass or a round, or it ends the run if a look at the time
is due and tells that it is late. -/
theorem advance_eq (plan : Plan α β) (g : EGraph α) (late : Bool) (r : Run α β) :
    plan.advance g late r =
      if r.overdue then none
      else if r.queue.isEmpty then if r.pass < plan.passes then some (r.nextPass g) else none
      else if plan.pollDue r && late then some { r with polls := r.polls + 1, overdue := true }
      else some (plan.round g (if plan.pollDue r then r.polls + 1 else r.polls) r) := by
  unfold advance
  cases punctual : r.overdue with
  | true => rfl
  | false =>
    have kept : ({ r with polls := r.polls + 1, overdue := false } : Run α β) =
        { r with polls := r.polls + 1 } := by rw [← punctual]
    cases plan.pollDue r <;> cases late <;> simp only [work_eq_round, kept] <;> rfl

/-- A step of a run that is not late. -/
inductive Step (plan : Plan α β) (g : EGraph α) : Run α β → Run α β → Prop
  | pass {r : Run α β} (idle : r.queue.items = []) (more : r.pass < plan.passes) :
      Step plan g r (r.nextPass g)
  | round {r : Run α β} (polls : Nat) (busy : r.queue.items ≠ []) :
      Step plan g r (plan.round g polls r)

/-- The runs that a run which is never late goes through. -/
inductive Reached (plan : Plan α β) (g : EGraph α) : Run α β → Prop
  | start : Reached plan g .start
  | step {r r' : Run α β} (before : Reached plan g r) (step : plan.Step g r r') : Reached plan g r'

/-- `n` steps lead from one run to another. -/
inductive Steps (plan : Plan α β) (g : EGraph α) : Nat → Run α β → Run α β → Prop
  | zero (r : Run α β) : Steps plan g 0 r r
  | succ {n : Nat} {r r' r'' : Run α β} (goes : plan.advance g false r = some r')
      (others : Steps plan g n r' r'') : Steps plan g (n + 1) r r''

variable {plan : Plan α β} {g : EGraph α} {n : Nat} {r r' : Run α β}

theorem Step.overdue (step : plan.Step g r r') : r'.overdue = r.overdue := by cases step <;> rfl

/-- What `advance` does when it is not late is a step, unless the run is over. -/
theorem advance_eq_none_or_step (plan : Plan α β) (g : EGraph α) (punctual : r.overdue = false) :
    (plan.advance g false r = none ∧ r.Over plan.passes) ∨
      ∃ r', plan.advance g false r = some r' ∧ plan.Step g r r' := by
  rw [advance_eq, if_neg (by simp [punctual])]
  by_cases idle : r.queue.isEmpty
  · rw [if_pos idle]
    have none : r.queue.items = [] := List.isEmpty_iff.1 idle
    by_cases more : r.pass < plan.passes
    · rw [if_pos more]
      exact .inr ⟨_, rfl, .pass none more⟩
    · rw [if_neg more]
      exact .inl ⟨rfl, none, Nat.le_of_not_lt more⟩
  · rw [if_neg idle, Bool.and_false, if_neg Bool.false_ne_true]
    exact .inr ⟨_, rfl, .round _ fun none => idle (List.isEmpty_iff.2 none)⟩

/-- The run that goes on from `r` for `limit` steps and is never late. -/
def unhurried (plan : Plan α β) (g : EGraph α) (limit : Nat) (r : Run α β) : Run α β :=
  Id.run (plan.iterate g (fun _ => pure false) limit r)

theorem unhurried_succ (plan : Plan α β) (g : EGraph α) (limit : Nat) (r : Run α β) :
    plan.unhurried g (limit + 1) r =
      match plan.advance g false r with
      | none => r
      | some r' => plan.unhurried g limit r' := by
  simp only [unhurried, iterate, pure_bind, ite_self]
  cases plan.advance g false r <;> rfl

theorem Step.of_advance (punctual : r.overdue = false) (goes : plan.advance g false r = some r') :
    plan.Step g r r' := by
  obtain ⟨stops, _⟩ | ⟨next, goes', step⟩ := advance_eq_none_or_step plan g punctual
  · cases goes.symm.trans stops
  · obtain rfl := Option.some.inj (goes.symm.trans goes')
    exact step

theorem Steps.reached (steps : plan.Steps g n r r') (reached : plan.Reached g r)
    (punctual : r.overdue = false) : plan.Reached g r' ∧ r'.overdue = false := by
  induction steps with
  | zero => exact ⟨reached, punctual⟩
  | succ goes _ ih =>
    have step := Step.of_advance punctual goes
    exact ih (reached.step step) (step.overdue.trans punctual)

theorem Steps.unhurried_eq (steps : plan.Steps g n r r') (limit : Nat) :
    plan.unhurried g (n + limit) r = plan.unhurried g limit r' := by
  induction steps with
  | zero => rw [Nat.zero_add]
  | succ goes _ ih =>
    rw [Nat.succ_add, unhurried_succ, goes]
    exact ih

theorem exists_steps (plan : Plan α β) (g : EGraph α) (limit : Nat) (r : Run α β) :
    ∃ n ≤ limit, plan.Steps g n r (plan.unhurried g limit r) := by
  induction limit generalizing r with
  | zero => exact ⟨0, Nat.le_refl _, .zero r⟩
  | succ limit ih =>
    rw [unhurried_succ]
    cases goes : plan.advance g false r with
    | none => exact ⟨0, Nat.zero_le _, .zero r⟩
    | some next =>
      obtain ⟨n, le, steps⟩ := ih next
      exact ⟨n + 1, Nat.succ_le_succ le, .succ goes steps⟩

/-- However far it is followed, a run goes step by step and is not late. -/
theorem reached_unhurried (limit : Nat) (reached : plan.Reached g r) (punctual : r.overdue = false) :
    plan.Reached g (plan.unhurried g limit r) ∧ (plan.unhurried g limit r).overdue = false := by
  obtain ⟨_, _, steps⟩ := plan.exists_steps g limit r
  exact steps.reached reached punctual

/-- A run is over in time if each of its steps makes smaller what bounds the number of steps. -/
theorem over_unhurried {P : Nat → Run α β → Prop}
    (smaller : ∀ {n r r'}, P n r → plan.Step g r r' → ∃ m < n, P m r') {limit n : Nat}
    (bounded : P n r) (room : n ≤ limit) (punctual : r.overdue = false) :
    (plan.unhurried g limit r).Over plan.passes := by
  induction limit generalizing n r with
  | zero =>
    obtain ⟨_, ended⟩ | ⟨r', _, step⟩ := advance_eq_none_or_step plan g punctual
    · exact ended
    · obtain ⟨m, less, _⟩ := smaller bounded step
      omega
  | succ limit ih =>
    rw [unhurried_succ]
    obtain ⟨stops, ended⟩ | ⟨r', goes, step⟩ := advance_eq_none_or_step plan g punctual
    · rw [stops]
      exact ended
    · rw [goes]
      obtain ⟨m, less, bounded'⟩ := smaller bounded step
      exact ih bounded' (by omega) (step.overdue.trans punctual)

/-- The run without a time limit. -/
def wholeRun (plan : Plan α β) (g : EGraph α) : Run α β := plan.unhurried g (plan.stepLimit g) .start

theorem reached_wholeRun (plan : Plan α β) (g : EGraph α) : plan.Reached g (plan.wholeRun g) :=
  (reached_unhurried _ .start rfl).1

end Plan

end Extraction
