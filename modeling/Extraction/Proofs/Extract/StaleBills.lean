import Extraction.Proofs.Double.Laws
import Extraction.Proofs.Extract.Outcome
import Extraction.Proofs.Relaxation.Itemized

/-! Cycles in a selection by bills. A bill is up to date when it is drawn up, which keeps it from closing
a cycle. But when a class below gets a cheaper realization that does not pay off for the class itself, the
bill goes on listing the old one. So the selection may have cycles, each with a bill on it that is out of
date; nothing else can be wrong with it. -/
namespace Extraction
open Std Relation

variable {α : Type} [Cost α]

/-- The bill of `c` lists all that the bill of `d` lists, which does not list `c` itself. -/
def Table.UpToDate (table : Table α (Bill α)) (c d : ClassId) : Prop :=
  ∀ entry below, TreeMap.get? table c = some entry → TreeMap.get? table d = some below →
    c ∉ below.detail ∧ ∀ b ∈ below.detail, b ∈ entry.detail

namespace Plan

variable {prune : Bool} {passes : Nat} {pace : Pace} {g : EGraph α} {r : Run α (Bill α)}

/-- A bill is up to date when it is drawn up: it lists what the bills below list, and a node whose class
they list is turned away. -/
theorem upToDate_of_candidate {table : Table α (Bill α)} {id : NodeId} {node : Node α}
    {entry : Entry α (Bill α)} (h : billEvaluation prune table id node = .candidate entry)
    {d : ClassId} (child : d ∈ node.children) :
    Table.UpToDate (table.insert node.eclass entry) node.eclass d := by
  intro entry' below held held'
  have other : node.eclass ≠ d := fun same => apart_of_candidate h (same ▸ child)
  rw [get?_insert, if_pos rfl] at held
  rw [get?_insert, if_neg other] at held'
  obtain rfl := Option.some.inj held
  exact ⟨not_listed_below h child held', fun _ listed => lists_below h child held' listed⟩

/-- On every circle there is a bill that is out of date with the next. -/
theorem Reached.exists_stale (reached : (byBills prune passes pace).Reached g r) {path : List ClassId}
    (circle : (r.selection g).Circle g path) :
    ∃ c ∈ path, ∃ d ∈ path, (r.selection g).Uses g c d ∧ ¬ r.table.UpToDate c d := by
  by_contra current
  have lists : ∀ c ∈ path, ∀ d ∈ path, (r.selection g).Uses g c d → ∃ entry below,
      TreeMap.get? r.table c = some entry ∧ TreeMap.get? r.table d = some below ∧
        c ∉ below.detail ∧ ∀ b ∈ below.detail, b ∈ entry.detail := by
    intro c mem d mem' use
    obtain ⟨entry, _, below, held, _, _, held'⟩ := (reached.founded careful_byBills).uses use
    have fresh : r.table.UpToDate c d := by
      by_contra stale
      exact current ⟨c, mem, d, mem', use, stale⟩
    exact ⟨entry, below, held, held', fresh entry below held held'⟩
  obtain ⟨c, _, round⟩ := circle.exists_transGen lists
  -- No bill on the way back to the class lists it.
  have absent : ∀ {d}, TransGen (fun c d => ∃ entry below, TreeMap.get? r.table c = some entry ∧
        TreeMap.get? r.table d = some below ∧
          c ∉ below.detail ∧ ∀ b ∈ below.detail, b ∈ entry.detail) c d →
      ∃ entry, TreeMap.get? r.table d = some entry ∧ c ∉ entry.detail := by
    intro d way
    induction way with
    | single step =>
      obtain ⟨_, below, _, held', off, _⟩ := step
      exact ⟨below, held', off⟩
    | tail _ step ih =>
      obtain ⟨entry, held, off⟩ := ih
      obtain ⟨entry', below, held', next, _, all⟩ := step
      obtain rfl := Option.some.inj (held.symm.trans held')
      exact ⟨below, next, fun mem => off (all c mem)⟩
  obtain ⟨entry, held, off⟩ := absent round
  exact off (reached.listed.own c entry held)

end Plan

/-- What an extraction by bills has recorded when it ends. -/
def Settings.untimedBills (settings : Settings) (g : EGraph α) : Table α (Bill α) :=
  let pace :=
    if settings.extractor = .parallelGreedyDag then .rounds (max settings.batchSize 1) else .single
  ((Plan.greedy settings pace).wholeRun g).table

theorem Settings.exists_stale {settings : Settings}
    (greedy : settings.extractor = .greedyDag ∨ settings.extractor = .parallelGreedyDag)
    {g : EGraph α} {roots : List ClassId} {s : Selection α} (ok : settings.untimed g roots = .ok s)
    {path : List ClassId} (circle : s.Circle g path) :
    ∃ c ∈ path, ∃ d ∈ path, s.Uses g c d ∧ ¬ (settings.untimedBills g).UpToDate c d := by
  unfold untimed run at ok
  obtain extractor | extractor := greedy <;> rw [extractor] at ok <;>
    obtain ⟨rfl, _⟩ := Plan.selection_of_extract ok <;>
    simp only [untimedBills, extractor]
  · exact ((Plan.greedy settings .single).reached_wholeRun g).exists_stale circle
  · exact ((Plan.greedy settings (.rounds _)).reached_wholeRun g).exists_stale circle

/-- A selection by bills passes the check exactly if its choices do not go round below the roots, and all
that the check can find is such a round, with a bill on it that is out of date. No bill is when it is put
in the table that it was drawn up from. -/
theorem Settings.greedy_check_ok_iff (settings : Settings)
    (greedy : settings.extractor = .greedyDag ∨ settings.extractor = .parallelGreedyDag)
    (g : EGraph α) (rooted : g.roots ≠ []) (s : Selection α)
    (ok : settings.untimed g g.roots = .ok s) :
    (s.check g = .ok () ↔ s.AcyclicBelow g g.roots) ∧
      (∀ e, s.check g = .error e → ∃ path, e = .cycle path ∧ s.Circle g path ∧
        (∀ c ∈ path, s.Below g g.roots c) ∧
        ∃ c ∈ path, ∃ d ∈ path, s.Uses g c d ∧ ¬ (settings.untimedBills g).UpToDate c d) ∧
      ∀ (table : Table α (Bill α)) id node entry,
        billEvaluation settings.pruneSingleChild table id node = .candidate entry →
        ∀ d ∈ node.children, Table.UpToDate (table.insert node.eclass entry) node.eclass d := by
  obtain ⟨founded, chosen⟩ := founded_of_untimed ok
  refine ⟨founded.check_eq_ok_iff rooted chosen, ?_, ?_⟩
  · intro e error
    obtain ⟨path, cycle, circle, below⟩ := founded.circle_of_check rooted chosen error
    exact ⟨path, cycle, circle, below, exists_stale greedy ok circle⟩
  · intro table id node entry candidate d child
    exact Plan.upToDate_of_candidate candidate child

section Fixed
set_option maxRecDepth 100000

/-- A graph whose class 6 becomes cheap after it was billed dearly below the class 4. -/
def staleDraft : Draft Float :=
  .ofNodes [(2, [4], 1), (4, [0, 6], 1), (0, [2], 1), (4, [], 46), (0, [5, 6], 1), (6, [1], 5),
    (6, [5, 1], 1), (5, [], 41), (6, [], 44), (1, [], 1)] [0]

def staleGraph : EGraph Float := staleDraft.toGraph.toOption.get (by decide +kernel)

def staleSelection (settings : Settings)
    (ok : (settings.untimed staleGraph staleGraph.roots).toOption.isSome) : Selection Float :=
  (settings.untimed staleGraph staleGraph.roots).toOption.get ok

/-- One after the other or in rounds of one, the extraction by bills chooses a cycle. -/
theorem staleSelection_goes_round :
    staleGraph.roots = [⟨0⟩] ∧
      (staleSelection {} (by decide +kernel)).check staleGraph =
        .error (.cycle [⟨0⟩, ⟨2⟩, ⟨4⟩]) ∧
      (staleSelection { extractor := .parallelGreedyDag, batchSize := 1 }
        (by decide +kernel)).check staleGraph = .error (.cycle [⟨0⟩, ⟨2⟩, ⟨4⟩]) := by
  decide +kernel

theorem staleSelection_not_acyclicBelow :
    staleGraph.roots ≠ [] ∧
      ¬ (staleSelection {} (by decide +kernel)).AcyclicBelow staleGraph staleGraph.roots := by
  have rooted : staleGraph.roots ≠ [] := by decide +kernel
  have fails : (staleSelection {} (by decide +kernel)).check staleGraph ≠ .ok () := by
    decide +kernel
  have exact := Settings.greedy_check_ok_iff {} (.inl rfl) staleGraph rooted
    (staleSelection {} (by decide +kernel)) (ok_get_toOption _)
  exact ⟨rooted, fun acyclic => fails (exact.1.2 acyclic)⟩

end Fixed

end Extraction
