import Extraction.Proofs.Cost.Rational
import Extraction.Proofs.Extract.Outcome
import Extraction.Proofs.Relaxation.Current
import Extraction.Proofs.Relaxation.Realization
import Extraction.Proofs.Relaxation.Recorded

/-! Recorded totals beside the cost of what is selected. The total of a class is that of a realization by its
chosen node, but not always by the nodes chosen in the end for the classes below: these may improve later,
and then stop sharing what the bill of the class counts on. Where they do not, the total is exact. -/
namespace Extraction
open Std Relation

variable {α β : Type} [Cost α]

/-- The last improvement of `c` came after the last one of `d`. -/
def Outcome.ImprovedAfter (o : Outcome α) (c d : ClassId) : Prop :=
  Extraction.ImprovedAfter o.installs.reverse c d

instance (o : Outcome α) (c d : ClassId) : Decidable (o.ImprovedAfter c d) :=
  inferInstanceAs (Decidable (_ < _))

/-- Nodes of the graph that realize `c` by the node `id` without a cycle cost no more than `total`. -/
def EGraph.Affords (g : EGraph α) (c : ClassId) (id : NodeId) (total : α) : Prop :=
  ∃ s : Selection α, s.choice? c = some id ∧ s.Proper g ∧ s.AcyclicBelow g [c] ∧
    ∃ cost, s.dagCost g [c] = .ok cost ∧ ¬ total < cost

namespace Plan
variable {prune : Bool} {passes : Nat} {pace : Pace} {g : EGraph α} {r : Run α (Bill α)}

/-- The node chosen for a class of a founded table. -/
theorem Founded.chosen {r : Run α β} (founded : Founded g r.table) {c : ClassId} {entry : Entry α β}
    (held : TreeMap.get? r.table c = some entry) : ∃ node, g.node? entry.choice = some node ∧
      node.eclass = c ∧ (r.selection g).chosen g c = .ok ⟨c, entry.choice, node⟩ := by
  obtain ⟨node, stored, owner, _⟩ := founded c entry held
  exact ⟨node, stored, owner, Selection.chosen_eq_ok.2 ⟨rfl, founded.choice?_eq held, stored⟩⟩

/-- A candidate above bills that charge what is chosen below charges what is chosen below it. -/
theorem charge_iff_of_candidate {s : Selection α} {table : Table α (Bill α)} {id : NodeId}
    {node : Node α} {entry : Entry α (Bill α)}
    (candidate : billEvaluation prune table id node = .candidate entry)
    (cost : s.chosenCost? g node.eclass = some node.cost)
    (uses : ∀ {e}, s.Uses g node.eclass e ↔ e ∈ node.children)
    (inner : ∀ e ∈ node.children, ∀ below, TreeMap.get? table e = some below → ∀ d x,
      below.detail[d]? = some x ↔ s.Below g [e] d ∧ s.chosenCost? g d = some x)
    (d : ClassId) (x : α) :
    entry.detail[d]? = some x ↔ s.Below g [node.eclass] d ∧ s.chosenCost? g d = some x := by
  have own := charge_self candidate
  have charged : ∀ {x}, entry.detail[d]? = some x →
      s.Below g [node.eclass] d ∧ s.chosenCost? g d = some x := by
    intro x charge
    by_cases same : d = node.eclass
    · subst same
      exact ⟨Selection.below_singleton.2 (.inl rfl), by rw [cost, ← own, charge]⟩
    · obtain ⟨e, child, below, held, charge'⟩ := charge_below candidate same charge
      obtain ⟨further, price⟩ := (inner e child below held d x).1 charge'
      exact ⟨Selection.below_singleton.2 (.inr ⟨e, uses.2 child, further⟩), price⟩
  refine ⟨charged, ?_⟩
  rintro ⟨below, price⟩
  have listed : ∃ y, entry.detail[d]? = some y := by
    obtain rfl | ⟨e, use, further⟩ := Selection.below_singleton.1 below
    · exact ⟨_, own⟩
    · have careful : (byBills (α := α) prune 1 .single).Careful := careful_byBills
      obtain ⟨entry', held⟩ := Table.covers_iff.1 (careful.ready candidate e (uses.1 use))
      have charge := (inner e (uses.1 use) entry' held d x).2 ⟨further, price⟩
      exact Bill.mem_iff_exists.1 (lists_below candidate (uses.1 use) held
        (Bill.mem_iff_exists.2 ⟨x, charge⟩))
  obtain ⟨y, charge⟩ := listed
  rw [charge, ← (charged charge).2, price]

/-- Where the classes below improved one after the other, from the bottom up, a bill charges for them and
nothing else what the chosen nodes cost. -/
theorem Reached.charge_iff (reached : (byBills prune passes pace).Reached g r)
    (one : pace.size = 1) {c : ClassId} {entry : Entry α (Bill α)}
    (held : TreeMap.get? r.table c = some entry)
    (ordered : ∀ d e, (r.selection g).Below g [c] d → (r.selection g).Uses g d e →
      ImprovedAfter r.installs d e) (d : ClassId) (x : α) :
    entry.detail[d]? = some x ↔
      (r.selection g).Below g [c] d ∧ (r.selection g).chosenCost? g d = some x := by
  have founded := reached.founded careful_byBills
  -- The induction is on how early a class improved last; what it uses did so earlier.
  induction age : (r.installs.map Install.eclass).length - (r.installs.map Install.eclass).idxOf c
    using Nat.strongRecOn generalizing c entry d x with
  | ind n ih =>
    obtain ⟨node, stored, rfl, chosen⟩ := founded.chosen held
    have cost : (r.selection g).chosenCost? g node.eclass = some node.cost := by
      rw [Selection.chosenCost?, chosen]
      rfl
    have uses : ∀ {e}, (r.selection g).Uses g node.eclass e ↔ e ∈ node.children :=
      Selection.uses_iff_of_chosen chosen
    have after : ∀ e ∈ node.children, ImprovedAfter r.installs node.eclass e := fun e child =>
      ordered _ e (Selection.below_singleton.2 (.inl rfl)) (uses.2 child)
    refine charge_iff_of_candidate (reached.current one _ entry node held stored after) cost uses ?_ d x
    intro e child below held' d x
    refine ih _ ?_ held' ?_ d x rfl
    · have bound := List.idxOf_le_length (a := e) (l := r.installs.map Install.eclass)
      have earlier := after e child
      unfold ImprovedAfter at earlier
      omega
    · intro d' e' below'
      exact ordered d' e' (Selection.below_singleton.2 (.inr ⟨e, uses.2 child, below'⟩))

section Exact
variable [ExactCost α]

/-- There the total is the dag cost. -/
theorem Reached.dagCost_eq (reached : (byBills prune passes pace).Reached g r)
    (one : pace.size = 1) {c : ClassId} {entry : Entry α (Bill α)}
    (held : TreeMap.get? r.table c = some entry)
    (ordered : ∀ d e, (r.selection g).Below g [c] d → (r.selection g).Uses g d e →
      ImprovedAfter r.installs d e) {cost : α}
    (spent : (r.selection g).dagCost g [c] = .ok cost) : entry.total = cost := by
  obtain ⟨visits, walk, rfl⟩ := Selection.dagCost_eq_ok.1 spent
  obtain ⟨drawn, visited⟩ := Selection.drawn_of_survey walk
  have charge := reached.charge_iff one held ordered
  have prices : ∀ d ∈ visits.map Visit.eclass,
      entry.detail[d]? = (r.selection g).chosenCost? g d := by
    intro d mem
    ext x
    rw [charge d x]
    exact ⟨And.right, fun price => ⟨(visited d).1 mem, price⟩⟩
  rw [reached.totalled c entry held]
  refine Bill.total_eq_sum drawn.nodup ?_ ((mapM_congr prices).trans drawn.costs)
  intro d
  rw [Bill.mem_iff_exists]
  constructor
  · intro mem
    obtain ⟨x, _, price⟩ := mem_mapM drawn.costs mem
    exact ⟨x, (prices d mem).trans price⟩
  · rintro ⟨x, charged⟩
    exact (visited d).2 ((charge d x).1 charged).1

/-- The bill of a class is that of a selection that goes round nowhere below the class. -/
theorem Reached.affords (reached : (byBills prune passes pace).Reached g r) {c : ClassId}
    {entry : Entry α (Bill α)} (held : TreeMap.get? r.table c = some entry) :
    g.Affords c entry.choice entry.total := by
  obtain ⟨node, visits, realization, charges⟩ := reached.realized c entry held
  rw [reached.totalled c entry held]
  exact realization.exists_selection charges

/-- What is recorded for a choice is what its class can be had for, and the dag cost where nothing below
improved too late. -/
theorem Reached.recorded_total (reached : (byBills prune passes pace).Reached g r)
    (one : pace.size = 1) {c : ClassId} {id : NodeId}
    (choice : (r.selection g).choice? c = some id) {cost : α}
    (spent : (r.selection g).dagCost g [c] = .ok cost) :
    ∃ total, r.candidates.get? id = some (some total) ∧ g.Affords c id total ∧
      ((∀ d e, (r.selection g).Below g [c] d → (r.selection g).Uses g d e →
        ImprovedAfter r.installs d e) → total = cost) := by
  obtain ⟨_, chosen⟩ := Run.choice?_selection.1 choice
  obtain ⟨entry, held, rfl⟩ := Option.map_eq_some_iff.1 chosen
  have positive : (byBills prune passes pace).Nonnegative g := fun _ _ => ExactCost.nonnegative _
  exact ⟨entry.total, reached.recorded_choice careful_byBills positive held, reached.affords held,
    fun ordered => reached.dagCost_eq one held ordered spent⟩

end Exact

end Plan

/-- What an extraction one node at a time has recorded for the choice of a class is what a realization of the
class by that node affords; and the dag cost of the class is defined. If no class below has improved after
a class that uses it, the two are the same. -/
theorem Settings.recorded_dagCost [ExactCost α] (settings : Settings)
    (sequential : settings.extractor = .greedyDag) (g : EGraph α) (roots : List ClassId)
    (poll : Nat → Bool) (s : Selection α)
    (ok : (Id.run (settings.run g roots fun n => pure (poll n))).selection = .ok s) {c : ClassId}
    {id : NodeId} (choice : s.choice? c = some id) :
    ∃ total cost, s.candidates.get? id = some (some total) ∧ s.dagCost g [c] = .ok cost ∧
      g.Affords c id total ∧
      ((∀ d e, s.Below g [c] d → s.Uses g d e →
        (Id.run (settings.run g roots fun n => pure (poll n))).ImprovedAfter d e) → total = cost) := by
  obtain ⟨founded, _⟩ := founded_of_run ok
  have rooted : ∀ r ∈ [c], (s.choice? r).isSome := by
    rw [List.forall_mem_singleton, choice]
    rfl
  obtain ⟨visits, walk⟩ := founded.exists_survey rooted
  have spent := Selection.dagCost_eq_ok.2 ⟨visits, walk, rfl⟩
  unfold run at ok ⊢
  rw [sequential] at ok ⊢
  simp only [Plan.extract_eq_timedRun, Outcome.ImprovedAfter, List.reverse_reverse] at ok ⊢
  obtain ⟨rfl, _⟩ := Run.conclude_eq_ok ok
  obtain ⟨_, reached⟩ := Plan.exists_reached ((Plan.greedy settings .single).goes_timed g poll
    ((Plan.greedy settings .single).stepLimit g) .start)
  obtain ⟨total, recorded, affords, same⟩ := reached.recorded_total rfl choice spent
  rw [Run.candidates_selection]
  exact ⟨total, _, recorded, spent, affords, same⟩

section Parting
set_option maxRecDepth 100000

/-- A graph whose root stands above classes 1 and 2, which share class 3 at first. Later class 2 gets a cheaper
node above class 4. -/
def partingGraph : EGraph ℚ≥0 :=
  (Draft.ofNodes [((3 : UInt32), ([] : List UInt32), .divNat 10 1), (5, [], 1), (1, [3], 1),
    (2, [3], 1), (0, [1, 2], 0), (4, [5], 1), (2, [4], 1)] [0]).toGraph.toOption.get
      (by decide +kernel)

def partingSelection : Selection ℚ≥0 :=
  (({} : Settings).untimed partingGraph partingGraph.roots).toOption.get (by decide +kernel)

/-- The root is recorded at what it cost while class 3 was shared, and is dearer in the end. -/
theorem partingSelection_dearer :
    partingSelection.choice? ⟨0⟩ = some ⟨⟨0⟩, 0⟩ ∧
      partingSelection.candidates.get? ⟨⟨0⟩, 0⟩ = some (some 12) ∧
      partingSelection.dagCost partingGraph [⟨0⟩] = .ok 14 ∧ (12 : ℚ≥0) < 14 := by
  decide +kernel

/-- Only the root uses a class that has improved after it. -/
theorem partingSelection_uses {d e : ClassId} (use : partingSelection.Uses partingGraph d e) :
    e ≠ ⟨0⟩ ∧ (d = ⟨0⟩ ∨ (Id.run (({} : Settings).run partingGraph partingGraph.roots
      fun _ => pure false)).ImprovedAfter d e) := by
  obtain ⟨id, node, choice, stored, child⟩ := use
  have all : ∀ p ∈ partingSelection.choices.toList,
      ∀ e ∈ ((partingGraph.node? p.2).map Node.children).getD [], e ≠ ⟨0⟩ ∧ (p.1 = ⟨0⟩ ∨
        (Id.run (({} : Settings).run partingGraph partingGraph.roots
          fun _ => pure false)).ImprovedAfter p.1 e) := by
    decide +kernel
  refine all (d, id) (OrderedMap.get?_eq_some_iff.1 choice) e ?_
  rw [stored]
  exact child

/-- The 12 recorded for the root can be had, and the 11 recorded for class 1 are what it costs in the end. -/
theorem partingGraph_affords : partingGraph.Affords ⟨0⟩ ⟨⟨0⟩, 0⟩ 12 ∧
    partingSelection.dagCost partingGraph [⟨1⟩] = .ok 11 := by
  have choice : partingSelection.choice? ⟨0⟩ = some ⟨⟨0⟩, 0⟩ := by decide +kernel
  have twelve : partingSelection.candidates.get? ⟨⟨0⟩, 0⟩ = some (some 12) := by decide +kernel
  have choice' : partingSelection.choice? ⟨1⟩ = some ⟨⟨1⟩, 0⟩ := by decide +kernel
  have eleven : partingSelection.candidates.get? ⟨⟨1⟩, 0⟩ = some (some 11) := by decide +kernel
  obtain ⟨_, _, recorded, _, affords, _⟩ := Settings.recorded_dagCost {} rfl partingGraph
    partingGraph.roots (fun _ => false) partingSelection (ok_get_toOption _) choice
  obtain rfl := Option.some.inj (Option.some.inj (twelve.symm.trans recorded))
  obtain ⟨_, _, recorded', spent, _, same⟩ := Settings.recorded_dagCost {} rfl partingGraph
    partingGraph.roots (fun _ => false) partingSelection (ok_get_toOption _) choice'
  obtain rfl := Option.some.inj (Option.some.inj (eleven.symm.trans recorded'))
  refine ⟨affords, ?_⟩
  rw [spent, same]
  intro d e below use
  refine (partingSelection_uses use).2.resolve_left ?_
  rintro rfl
  obtain ⟨r, root, path⟩ := below
  rw [List.mem_singleton.1 root, ReflTransGen.cases_tail_iff] at path
  obtain first | ⟨_, _, last⟩ := path
  · exact absurd first (by decide)
  · exact (partingSelection_uses last).1 rfl

end Parting

end Extraction
