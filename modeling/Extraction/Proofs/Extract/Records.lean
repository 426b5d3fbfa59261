import Extraction.Proofs.Cost.Rational
import Extraction.Proofs.Extract.Outcome
import Extraction.Proofs.Relaxation.Descent
import Extraction.Proofs.Relaxation.Itemized
import Extraction.Proofs.Relaxation.Recorded
import Extraction.Proofs.Selection.Hints

/-! What an extraction has recorded in the end. The node chosen for a class is a cheapest one of its class by
the recorded costs, and the improvements of the class have come down to its cost. So the nodes that the
recorded costs rule out are never chosen. -/
namespace Extraction
open Std

variable {α β : Type} [Cost α]

/-- The improvements of a class, the earliest first. -/
def Outcome.installsOf (o : Outcome α) (c : ClassId) : List (Install α) :=
  o.installs.filter fun i => i.eclass = c

theorem Descends.exists_last {first last : Option α} {installs : List (Install α)}
    (h : Descends first installs last) : installs = [] ∧ last = first ∨ ∃ a, last = some a := by
  induction h with
  | nil => exact .inl ⟨rfl, rfl⟩
  | cons _ _ ih =>
    right
    obtain ⟨_, same⟩ | found := ih
    · exact ⟨_, same⟩
    · exact found

section Ordered
variable [OrderedCost α]

namespace Plan
variable {g : EGraph α}

theorem nonnegative_byBills {prune : Bool} {passes : Nat} {pace : Pace} :
    (byBills prune passes pace).Nonnegative g := by
  intro r id entry reached evaluated
  obtain ⟨node, stored, candidate⟩ := evaluateIn_eq_candidate.1 evaluated
  obtain ⟨_, rfl⟩ | ⟨_, children, _, _, _, _, drawn⟩ := billEvaluation_eq_candidate.1 candidate
  · exact EGraph.nonnegative_cost stored
  have total : entry.total = Cost.sum entry.detail.values := by
    rw [← drawn]
    rfl
  rw [total]
  refine nonnegative_sum ?_ fun x paid => ?_
  · have own : node.eclass ∈ entry.detail := Bill.mem_iff_exists.2 ⟨_, charge_self candidate⟩
    obtain ⟨_, paid, _⟩ := mem_mapM entry.detail.mapM_keys (TreeMap.mem_keys.2 own)
    exact List.ne_nil_of_mem paid
  · obtain ⟨d, _, charge⟩ := exists_of_mem_mapM entry.detail.mapM_keys paid
    obtain ⟨⟨_, priced, stored', _, rfl⟩, _⟩ :=
      charges_of_candidate reached.charged stored candidate charge
    exact EGraph.nonnegative_cost stored'

theorem nonnegative_byMeasure {measure : Node α → List α → α} (superior : Superior measure) :
    (byMeasure measure).Nonnegative g := by
  intro r id entry reached evaluated
  obtain ⟨node, stored, candidate⟩ := evaluateIn_eq_candidate.1 evaluated
  obtain ⟨below, values, rfl⟩ := measureEvaluation_eq_candidate.1 candidate
  exact superior.nonnegative_measure (reached.nonnegative superior) stored values

variable {plan : Plan α β} {r : Run α β}

/-- The choices of a run are cheapest by what it has recorded. -/
theorem Reached.cheapest (reached : plan.Reached g r) (careful : plan.Careful)
    (positive : plan.Nonnegative g) {c : ClassId} {entry : Entry α β}
    (held : TreeMap.get? r.table c = some entry) :
    (r.selection g).Cheapest c entry.choice entry.total := by
  obtain ⟨node, stored, owner, _⟩ := reached.founded careful c entry held
  refine ⟨(EGraph.owner_of_node? stored).trans owner, ?_, ?_⟩
  · rw [Run.candidates_selection]
    exact reached.recorded_choice careful positive held
  · intro other x sibling recorded
    rw [Run.candidates_selection] at recorded
    have above := reached.not_improves_of_recorded recorded
    rwa [sibling, Table.total?_of_get? held, Cost.not_improves_some] at above

/-- What an extraction has recorded when it succeeds, and how the totals have come down to it. -/
structure Tallies (s : Selection α) (installsOf : ClassId → List (Install α)) : Prop where
  nonnegative : s.Nonnegative
  chosen : ∀ {c : ClassId} {id : NodeId}, s.choice? c = some id →
    ∃ total, s.Cheapest c id total ∧ Descends none (installsOf c) (some total)
  unchosen : ∀ {c : ClassId}, s.choice? c = none → installsOf c = []

theorem Reached.tallies (reached : plan.Reached g r) (careful : plan.Careful)
    (positive : plan.Nonnegative g) : Tallies (r.selection g) r.installsOf where
  nonnegative := by
    intro id x recorded
    rw [Run.candidates_selection] at recorded
    exact reached.nonnegative_recorded positive recorded
  chosen := by
    intro c id choice
    obtain ⟨_, chosen⟩ := Run.choice?_selection.1 choice
    obtain ⟨entry, held, rfl⟩ := Option.map_eq_some_iff.1 chosen
    have down := reached.descends c
    rw [Table.total?_of_get? held] at down
    exact ⟨entry.total, reached.cheapest careful positive held, down⟩
  unchosen := by
    intro c unchosen
    have down := reached.descends c
    cases held : TreeMap.get? r.table c with
    | none =>
      rw [Table.total?, held] at down
      obtain ⟨idle, _⟩ | ⟨_, last⟩ := down.exists_last
      · exact idle
      · cases last
    | some entry => cases unchosen.symm.trans ((reached.founded careful).choice?_eq held)

theorem tallies_of_extract (careful : plan.Careful) (positive : plan.Nonnegative g) {limit : Nat}
    {roots : List ClassId} {poll : Nat → Bool} {s : Selection α}
    (ok : (Id.run (plan.extract limit g roots fun n => pure (poll n))).selection = .ok s) :
    Tallies s (Id.run (plan.extract limit g roots fun n => pure (poll n))).installsOf := by
  rw [extract_eq_timedRun] at ok ⊢
  obtain ⟨rfl, _⟩ := Run.conclude_eq_ok ok
  obtain ⟨_, reached⟩ := plan.exists_reached_timedRun g poll
  exact reached.tallies careful positive

end Plan

theorem Settings.tallies_of_run {settings : Settings} {g : EGraph α} {roots : List ClassId}
    {poll : Nat → Bool} {s : Selection α}
    (ok : (Id.run (settings.run g roots fun n => pure (poll n))).selection = .ok s) :
    Plan.Tallies s (Id.run (settings.run g roots fun n => pure (poll n))).installsOf := by
  unfold run at ok ⊢
  cases extractor : settings.extractor <;> rw [extractor] at ok
  · exact Plan.tallies_of_extract Plan.careful_byBills Plan.nonnegative_byBills ok
  · exact Plan.tallies_of_extract Plan.careful_byBills Plan.nonnegative_byBills ok
  · exact Plan.tallies_of_extract Plan.careful_byMeasure
      (Plan.nonnegative_byMeasure superior_treeMeasure) ok
  · exact Plan.tallies_of_extract Plan.careful_byMeasure
      (Plan.nonnegative_byMeasure superior_depthMeasure) ok

end Ordered

/-- Where an extraction succeeds, the cost recorded for the choice of a class is the least one recorded for a
node of the class, and the improvements of the class come down to it step by step; a class without a choice
has none. So whatever the bound, no choice is ruled out, and no node that is used at the start is. -/
theorem Settings.choices_cheapest [ScaledCost α] (settings : Settings) (g : EGraph α)
    (roots : List ClassId) (poll : Nat → Bool) (s : Selection α)
    (ok : (Id.run (settings.run g roots fun n => pure (poll n))).selection = .ok s) :
    (∀ c id, s.choice? c = some id → ∃ total, s.Cheapest c id total ∧
      Descends none ((Id.run (settings.run g roots fun n => pure (poll n))).installsOf c)
        (some total)) ∧
    (∀ c, s.choice? c = none →
      (Id.run (settings.run g roots fun n => pure (poll n))).installsOf c = []) ∧
    ∀ bound, Cost.isFinite bound = true → ¬ bound < 1 →
      (∀ c id, s.choice? c = some id → id ∉ s.zeroNodes bound) ∧
      ∀ decisions, Decision.warmStart s g = .ok decisions → ∀ id, .node id true ∈ decisions →
        .node id false ∉ Decision.rulingOut (s.zeroNodes bound) := by
  have tallies := tallies_of_run ok
  have kept : ∀ bound, Cost.isFinite bound = true → ¬ bound < 1 →
      ∀ c id, s.choice? c = some id → id ∉ s.zeroNodes bound := by
    intro bound finite factor c id choice
    obtain ⟨total, cheapest, _⟩ := tallies.chosen choice
    exact cheapest.not_mem_zeroNodes tallies.nonnegative finite factor
  refine ⟨fun c id => tallies.chosen, fun c => tallies.unchosen, ?_⟩
  intro bound finite factor
  refine ⟨kept bound finite factor, ?_⟩
  intro decisions warm id used
  obtain ⟨c, choice⟩ := Decision.choice?_of_warmStart warm used
  rw [Decision.mem_rulingOut]
  exact kept bound finite factor c id choice

section Rivals
set_option maxRecDepth 100000

/-- A graph of one class with a dear leaf and, after it, a cheap one. -/
def rivalGraph : EGraph ℚ≥0 :=
  (Draft.ofNodes [((0 : UInt32), ([] : List UInt32), .divNat 5 1), (0, [], 1)] [0]).toGraph.toOption.get
    (by decide +kernel)

def rivalSelection : Selection ℚ≥0 :=
  (({} : Settings).untimed rivalGraph rivalGraph.roots).toOption.get (by decide +kernel)

/-- The dear leaf is chosen first and ruled out in the end, and the cheap one is not. -/
theorem rivalSelection_cheapest :
    ⟨⟨0⟩, 0⟩ ∈ rivalSelection.zeroNodes 1 ∧ ⟨⟨0⟩, 1⟩ ∉ rivalSelection.zeroNodes 1 ∧
      ∃ total, rivalSelection.Cheapest ⟨0⟩ ⟨⟨0⟩, 1⟩ total := by
  have choice : rivalSelection.choice? ⟨0⟩ = some ⟨⟨0⟩, 1⟩ := by decide +kernel
  obtain ⟨chosen, _, hinted⟩ := Settings.choices_cheapest {} rivalGraph rivalGraph.roots
    (fun _ => false) rivalSelection (ok_get_toOption _)
  obtain ⟨total, cheapest, _⟩ := chosen ⟨0⟩ ⟨⟨0⟩, 1⟩ choice
  exact ⟨by decide +kernel, (hinted 1 rfl (lt_irrefl 1)).1 ⟨0⟩ _ choice, total, cheapest⟩

end Rivals

end Extraction
