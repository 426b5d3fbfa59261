import Extraction.Proofs.Extract.Records
import Extraction.Proofs.Extract.Shortcut
import Extraction.Proofs.Relaxation.Overlooked

/-! The nodes ruled out with the shortcut for single children and without it. The shortcut records less of nodes
above a single class, and what has no recorded cost is taken for infeasible. So with the shortcut all those
nodes are ruled out that are ruled out without it, and some above a single class besides, among them such as
cost little more than the best of their class. -/
namespace Extraction
open Std Relation

variable {α β : Type} [Cost α]

/-- Relations between optional values hold together. -/
theorem rel_and {κ ν : Type} {R S : κ → ν → Prop} {x : Option κ} {y : Option ν}
    (h : Option.Rel R x y) (h' : Option.Rel S x y) : Option.Rel (fun a b => R a b ∧ S a b) x y := by
  cases h with
  | none => exact .none
  | some first =>
    cases h' with
    | some second => exact .some ⟨first, second⟩

section Exact
variable [ExactCost α]

namespace Selection

theorem Cheapest.leastTotal_eq {s : Selection α} {c : ClassId} {id : NodeId} {total : α}
    (h : s.Cheapest c id total) : s.leastTotal? c = some total := by
  have above := not_improves_leastTotal h.recorded
  rw [h.owner] at above
  obtain ⟨least, attained, notAbove⟩ := Cost.not_improves_iff.1 above
  obtain ⟨other, sibling, recorded⟩ := exists_of_leastTotal attained
  rw [attained, ExactCost.eq_of_not_lt notAbove (h.least sibling recorded)]

variable {g : EGraph α} {s s' : Selection α}

/-- With the same least totals, no more nodes are ruled out where more is recorded. -/
theorem zeroNodes_subset (overlooks : Overlooks g s.candidates s'.candidates)
    (least : ∀ c, s.leastTotal? c = s'.leastTotal? c) (bound : α) :
    s'.zeroNodes bound ⊆ s.zeroNodes bound := by
  intro id hinted
  obtain ⟨total, best, recorded, attained, dear⟩ := mem_zeroNodes.1 hinted
  rw [← least] at attained
  obtain same | ⟨_, kept, all, found, found', below⟩ := overlooks id
  · exact mem_zeroNodes.2 ⟨total, best, same.trans recorded, attained, dear⟩
  · refine mem_zeroNodes.2 ⟨kept, best, found, attained, ?_⟩
    obtain rfl := Option.some.inj (recorded.symm.trans found')
    cases kept with
    | none => rfl
    | some x =>
      obtain ⟨y, rfl, notLess⟩ := Cost.not_improves_iff.1 (below x rfl)
      have beyond : best * bound < y := by simpa [exceeds] using dear
      simpa [exceeds] using OrderedCost.lt_of_lt_of_not_lt (ExactCost.nonnegative _)
        (ExactCost.nonnegative y) (ExactCost.nonnegative x) beyond notLess

omit [ExactCost α] in
/-- A node that is ruled out only where less is recorded stands above a single class. -/
theorem aboveSingle_of_zeroNodes (overlooks : Overlooks g s.candidates s'.candidates)
    (least : ∀ c, s.leastTotal? c = s'.leastTotal? c) {bound : α} {id : NodeId}
    (hinted : id ∈ s.zeroNodes bound) (spared : id ∉ s'.zeroNodes bound) : g.AboveSingle id := by
  obtain ⟨total, best, recorded, attained, dear⟩ := mem_zeroNodes.1 hinted
  obtain same | ⟨single, _⟩ := overlooks id
  · rw [least] at attained
    exact absurd (mem_zeroNodes.2 ⟨total, best, same.symm.trans recorded, attained, dear⟩) spared
  · exact single

end Selection

namespace Plan

section Least
variable {plan : Plan α β} {g : EGraph α} {r : Run α β}

/-- The least cost recorded for a node of a class is the total of the class. -/
theorem Reached.leastTotal_eq (reached : plan.Reached g r) (careful : plan.Careful) (c : ClassId) :
    (r.selection g).leastTotal? c = r.table.total? c := by
  cases held : TreeMap.get? r.table c with
  | none =>
    have bare : r.table.total? c = none := by rw [Table.total?, held, Option.map_none]
    rw [bare, Option.eq_none_iff_forall_ne_some]
    intro a attained
    obtain ⟨id, rfl, recorded⟩ := Selection.exists_of_leastTotal attained
    rw [Run.candidates_selection] at recorded
    have above := reached.not_improves_of_recorded recorded
    rw [bare] at above
    cases above
  | some entry =>
    rw [Table.total?_of_get? held]
    exact (reached.cheapest careful (fun _ _ => ExactCost.nonnegative _) held).leastTotal_eq

theorem leastTotal_timedRun (careful : plan.Careful) (g : EGraph α) (poll : Nat → Bool)
    (c : ClassId) : ((plan.timedRun g poll).selection g).leastTotal? c =
      (plan.timedRun g poll).table.total? c := by
  obtain ⟨_, reached⟩ := plan.exists_reached_timedRun g poll
  exact reached.leastTotal_eq careful c

end Least

variable {passes : Nat} {pace : Pace} {g : EGraph α} {r r' : Run α (Bill α)}

/-- Runs abreast record alike but for what the shortcut leaves out. -/
theorem overlooks_advance (alike : r.AlikeButRecords r') (h : Overlooks g r.candidates r'.candidates)
    (poll : Nat → Bool) :
    Option.Rel (fun q q' : Run α (Bill α) => Overlooks g q.candidates q'.candidates)
      ((byBills true passes pace).advance g ((byBills true passes pace).late poll r) r)
      ((byBills false passes pace).advance g ((byBills false passes pace).late poll r') r') := by
  have pace' : (byBills (α := α) false passes pace).pace = (byBills (α := α) true passes pace).pace :=
    rfl
  have passes' : (byBills (α := α) false passes pace).passes =
    (byBills (α := α) true passes pace).passes := rfl
  rw [late_of_alike pace' alike, advance_eq, advance_eq, pollDue_of_alike pace' alike, passes']
  obtain ⟨candidates, rfl⟩ := alike
  split
  · exact .none
  split
  · split
    · exact .some h
    · exact .none
  split
  · exact .some h
  · exact .some (h.recorded _)

/-- What extractions with and without the shortcut have recorded in the end. -/
theorem overlooks_of_extract (passes : Nat) (pace : Pace) (limit : Nat) (g : EGraph α)
    (roots : List ClassId) (poll : Nat → Bool) {s s' : Selection α}
    (ok : (Id.run ((byBills true passes pace).extract limit g roots
      fun n => pure (poll n))).selection = .ok s)
    (ok' : (Id.run ((byBills false passes pace).extract limit g roots
      fun n => pure (poll n))).selection = .ok s') :
    Overlooks g s.candidates s'.candidates ∧ ∀ c, s.leastTotal? c = s'.leastTotal? c := by
  have start : Abreast passes pace g .start .start ∧
      Overlooks g (Run.start : Run α (Bill α)).candidates (Run.start : Run α (Bill α)).candidates :=
    ⟨⟨.refl, _, rfl⟩, fun _ => .inl rfl⟩
  have ends : Abreast passes pace g ((byBills true passes pace).timedRun g poll)
        ((byBills false passes pace).timedRun g poll) ∧
      Overlooks g ((byBills true passes pace).timedRun g poll).candidates
        ((byBills false passes pace).timedRun g poll).candidates :=
    timed_related (fun related => rel_and (related.1.advance poll)
      (overlooks_advance related.1.alike related.2 poll)) _ start
  obtain ⟨⟨_, alike⟩, overlooks⟩ := ends
  rw [extract_eq_timedRun] at ok ok'
  obtain ⟨rfl, _⟩ := Run.conclude_eq_ok ok
  obtain ⟨rfl, _⟩ := Run.conclude_eq_ok ok'
  constructor
  · rw [Run.candidates_selection, Run.candidates_selection]
    exact overlooks
  · intro c
    rw [leastTotal_timedRun careful_byBills, leastTotal_timedRun careful_byBills]
    obtain ⟨_, same⟩ := alike
    exact (congrArg (fun r : Run α (Bill α) => r.table.total? c) same).symm

end Plan

theorem Settings.overlooks_of_shortcut {settings : Settings} {g : EGraph α} {roots : List ClassId}
    {poll : Nat → Bool} {s s' : Selection α}
    (ok : (Id.run ({ settings with pruneSingleChild := true }.run g roots
      fun n => pure (poll n))).selection = .ok s)
    (ok' : (Id.run ({ settings with pruneSingleChild := false }.run g roots
      fun n => pure (poll n))).selection = .ok s') :
    Overlooks g s.candidates s'.candidates ∧ ∀ c, s.leastTotal? c = s'.leastTotal? c := by
  unfold run at ok ok'
  cases extractor : settings.extractor <;> simp only [extractor] at ok ok'
  · exact Plan.overlooks_of_extract _ .single _ g roots poll ok ok'
  · exact Plan.overlooks_of_extract _ (.rounds _) _ g roots poll ok ok'
  · obtain rfl := Except.ok.inj (ok.symm.trans ok')
    exact ⟨fun _ => .inl rfl, fun _ => rfl⟩
  · obtain rfl := Except.ok.inj (ok.symm.trans ok')
    exact ⟨fun _ => .inl rfl, fun _ => rfl⟩

/-- With exact costs, all nodes that are ruled out without the shortcut for single children are ruled out with
it. Those that are ruled out besides stand above a single class and are not what their class has chosen. -/
theorem Settings.zeroNodes_of_shortcut [ScaledCost α] (settings : Settings) (g : EGraph α)
    (roots : List ClassId) (poll : Nat → Bool) (s s' : Selection α)
    (ok : (Id.run ({ settings with pruneSingleChild := true }.run g roots
      fun n => pure (poll n))).selection = .ok s)
    (ok' : (Id.run ({ settings with pruneSingleChild := false }.run g roots
      fun n => pure (poll n))).selection = .ok s') (bound : α)
    (finite : Cost.isFinite bound = true) (factor : ¬ bound < 1) :
    s'.zeroNodes bound ⊆ s.zeroNodes bound ∧
      ∀ id ∈ s.zeroNodes bound, id ∉ s'.zeroNodes bound →
        g.AboveSingle id ∧ s.choice? id.owner ≠ some id := by
  obtain ⟨overlooks, least⟩ := overlooks_of_shortcut ok ok'
  refine ⟨Selection.zeroNodes_subset overlooks least bound, ?_⟩
  intro id hinted spared
  refine ⟨Selection.aboveSingle_of_zeroNodes overlooks least hinted spared, ?_⟩
  intro choice
  have tallies := tallies_of_run ok
  obtain ⟨total, cheapest, _⟩ := tallies.chosen choice
  exact cheapest.not_mem_zeroNodes tallies.nonnegative finite factor hinted

end Exact

section Hidden
set_option maxRecDepth 100000

/-- A graph whose class 1 has, after a leaf, a node above class 3. The node is feasible and costs little more
than the leaf, and the root is cheapest with it, since class 3 is then shared. -/
def hiddenGraph : EGraph ℚ≥0 :=
  (Draft.ofNodes [((3 : UInt32), ([] : List UInt32), .divNat 8 1), (1, [], .divNat 8 1), (1, [3], 1),
    (2, [3], 1), (0, [1, 2], 0)] [0]).toGraph.toOption.get (by decide +kernel)

def hiddenSelection (prune : Bool) : Selection ℚ≥0 :=
  if prune then
    (({} : Settings).untimed hiddenGraph hiddenGraph.roots).toOption.get (by decide +kernel)
  else
    (({ pruneSingleChild := false } : Settings).untimed hiddenGraph hiddenGraph.roots).toOption.get
      (by decide +kernel)

/-- The node above class 3 costs 9 where the best of its class costs 8. With the shortcut it is ruled out although
5/4 of the best is allowed, and without the shortcut it is not. -/
theorem hiddenSelection_hints :
    (hiddenSelection false).candidates.get? ⟨⟨1⟩, 1⟩ = some (some (.divNat 9 1)) ∧
      (hiddenSelection true).zeroNodes (.divNat 5 4) = [⟨⟨1⟩, 1⟩] ∧
      (hiddenSelection false).zeroNodes (.divNat 5 4) = [] := by
  decide +kernel

/-- The node that is ruled out stands above a single class and is not chosen. -/
theorem hiddenGraph_aboveSingle :
    hiddenGraph.AboveSingle ⟨⟨1⟩, 1⟩ ∧ (hiddenSelection true).choice? ⟨1⟩ ≠ some ⟨⟨1⟩, 1⟩ :=
  (Settings.zeroNodes_of_shortcut {} hiddenGraph hiddenGraph.roots (fun _ => false)
    (hiddenSelection true) (hiddenSelection false) (ok_get_toOption _) (ok_get_toOption _)
    (.divNat 5 4) rfl (by decide +kernel)).2 ⟨⟨1⟩, 1⟩ (by decide +kernel) (by decide +kernel)

end Hidden

end Extraction
