import Extraction.Proofs.Extract.RecordedTotals

/-! Extractions that improve no class twice. There the log of improvements lists each class after all that its node
stands above, so that no entry is ever out of date and every recorded total is the cost of what is selected. Where
every class has one node, no class improves twice: its node evaluated again comes to the entry that it has. -/
namespace Extraction
open Std Relation

variable {α β : Type} [Cost α]

omit [Cost α] in
/-- Of what stands once in a log, the newer part improved after the older part. -/
theorem ImprovedAfter.of_append {newer older : List (Install α)} {c d : ClassId}
    (once : ((newer ++ older).map Install.eclass).Nodup) (new : c ∈ newer.map Install.eclass)
    (old : d ∈ older.map Install.eclass) : ImprovedAfter (newer ++ older) c d := by
  rw [List.map_append, List.nodup_append] at once
  have apart : d ∉ newer.map Install.eclass := fun mem => once.2.2 d mem d old rfl
  have bound := List.idxOf_lt_length_of_mem new
  rw [ImprovedAfter, List.map_append, List.idxOf_append_of_mem new, List.idxOf_append_of_notMem apart]
  omega

omit [Cost α] in
/-- What improves later does not change which of two classes improved after the other. -/
theorem ImprovedAfter.append_left {newer older : List (Install α)} {c d : ClassId}
    (once : ((newer ++ older).map Install.eclass).Nodup) (old : c ∈ older.map Install.eclass)
    (old' : d ∈ older.map Install.eclass) (after : ImprovedAfter older c d) :
    ImprovedAfter (newer ++ older) c d := by
  rw [List.map_append, List.nodup_append] at once
  have apart : ∀ e ∈ older.map Install.eclass, e ∉ newer.map Install.eclass :=
    fun e mem new => once.2.2 e new e mem rfl
  rw [ImprovedAfter] at after
  rw [ImprovedAfter, List.map_append, List.idxOf_append_of_notMem (apart c old),
    List.idxOf_append_of_notMem (apart d old')]
  omega

namespace Plan
variable {plan : Plan α β} {g : EGraph α} {r : Run α β}

/-- The improvements of a round are those of its winners. -/
theorem map_installs_round (plan : Plan α β) (g : EGraph α) (polls : Nat) (r : Run α β) :
    (plan.round g polls r).installs.map Install.eclass =
      (plan.wins g r).keys.reverse ++ r.installs.map Install.eclass := by
  rw [round_installs, List.map_append, List.map_reverse, List.map_map]
  rfl

/-- The classes that have improved are those that have a realization. -/
theorem Reached.mem_installs_iff (reached : plan.Reached g r) {c : ClassId} :
    c ∈ r.installs.map Install.eclass ↔ r.table.Covers c := by
  induction reached with
  | start => simp [Run.start, Table.Covers]
  | step _ step ih =>
    cases step with
    | pass => exact ih
    | round =>
      rename_i r _ _ _
      rw [map_installs_round, List.mem_append, List.mem_reverse, ih, OrderedMap.mem_keys_iff,
        round_table, Table.Covers, Table.Covers, Table.get?_update, Option.isSome_or,
        Bool.or_eq_true]

/-- Where no class has improved twice, each has improved after all that its node stands above. -/
theorem Reached.improvedAfter (reached : plan.Reached g r) (careful : plan.Careful)
    (once : (r.installs.map Install.eclass).Nodup) {c d : ClassId} {entry : Entry α β} {node : Node α}
    (held : TreeMap.get? r.table c = some entry) (stored : g.node? entry.choice = some node)
    (child : d ∈ node.children) : ImprovedAfter r.installs c d := by
  induction reached with
  | start => cases held
  | step before step ih =>
    cases step with
    | pass => exact ih once held
    | round =>
      rename_i r _ _
      rw [round_installs] at once ⊢
      have older : (r.installs.map Install.eclass).Nodup :=
        once.sublist ((List.sublist_append_right _ _).map _)
      obtain won | ⟨_, old⟩ := Table.entry_of_update held
      · obtain ⟨node', stored', _, _, _, covered⟩ := careful.node_of_winner won
        obtain rfl := Option.some.inj (stored.symm.trans stored')
        refine .of_append once ?_ (before.mem_installs_iff.2 (covered d child))
        rw [List.map_reverse, List.mem_reverse, List.map_map]
        exact OrderedMap.mem_keys_of_mem (OrderedMap.get?_eq_some_iff.1 won)
      · obtain ⟨node', stored', _, covered⟩ := before.founded careful c entry old
        obtain rfl := Option.some.inj (stored.symm.trans stored')
        exact (ih older old).append_left once
          (before.mem_installs_iff.2 (Table.covers_iff.2 ⟨entry, old⟩))
          (before.mem_installs_iff.2 (covered d child))

section Bills
variable {prune : Bool} {passes : Nat} {pace : Pace} {r : Run α (Bill α)}

/-- Where no class has improved twice, every entry is what its node would be billed now. -/
theorem Reached.current_of_once (reached : (byBills prune passes pace).Reached g r)
    (one : pace.size = 1) (once : (r.installs.map Install.eclass).Nodup) {c : ClassId}
    {entry : Entry α (Bill α)} {node : Node α} (held : TreeMap.get? r.table c = some entry)
    (stored : g.node? entry.choice = some node) :
    billEvaluation false r.table entry.choice node = .candidate entry :=
  reached.current one c entry node held stored fun _ child =>
    reached.improvedAfter careful_byBills once held stored child

/-- Where every class has one node, no class improves twice. -/
theorem Reached.nodup_installs [OrderedCost α] (reached : (byBills prune passes pace).Reached g r)
    (one : pace.size = 1) (single : ∀ c ∈ g.classes, (g.membersOf c).length = 1) :
    (r.installs.map Install.eclass).Nodup := by
  induction reached with
  | start => exact List.nodup_nil
  | step before step ih =>
    cases step with
    | pass => exact ih
    | round polls busy =>
      rename_i r
      have one' : (byBills (α := α) prune passes pace).pace.size = 1 := one
      rw [map_installs_round, OrderedMap.keys]
      obtain none | ⟨id, won, evaluated, alone⟩ := wins_of_single one' g r
      · rw [none]
        exact ih
      rw [alone]
      refine List.nodup_cons.2 ⟨fun again => ?_, ih⟩
      -- The class has an entry for its one node, which would be billed the same again.
      obtain ⟨entry, held⟩ := Table.covers_iff.1 (before.mem_installs_iff.1 again)
      obtain ⟨node, stored, owner, _⟩ := before.founded careful_byBills _ entry held
      obtain ⟨node', stored', candidate⟩ := evaluateIn_eq_candidate.1 evaluated
      have same : id = entry.choice := by
        have member := EGraph.mem_membersOf.2 ⟨node, stored, owner⟩
        have member' := EGraph.mem_membersOf.2 ⟨node', stored', (EGraph.owner_of_node? stored').symm⟩
        have known := EGraph.mem_classes.2 ⟨_, node, stored, owner⟩
        obtain ⟨alone, one⟩ := List.length_eq_one_iff.1 (single _ known)
        rw [one, List.mem_singleton] at member member'
        rw [member, member']
      subst same
      obtain rfl := Option.some.inj (stored.symm.trans stored')
      have now := before.current_of_once one ih held stored
      obtain rfl : entry = won :=
        Evaluation.candidate.inj (now.symm.trans (candidate_of_shortcut candidate))
      have wins : ((byBills prune passes pace).wins g r).get? entry.choice.owner = some entry := by
        rw [OrderedMap.get?_eq_some_iff, alone]
        exact List.mem_singleton_self _
      have better := improves_of_winner wins
      rw [Table.total?_of_get? held, Cost.not_improves_self] at better
      cases better

/-- Where no class has improved twice, what is recorded for a choice is the dag cost of its class. -/
theorem Reached.recorded_of_once [ExactCost α] (reached : (byBills prune passes pace).Reached g r)
    (one : pace.size = 1) (once : (r.installs.map Install.eclass).Nodup) {c : ClassId} {id : NodeId}
    (choice : (r.selection g).choice? c = some id) :
    ∃ total, r.candidates.get? id = some (some total) ∧
      (r.selection g).dagCost g [c] = .ok total := by
  have founded := reached.founded careful_byBills
  have rooted : ∀ root ∈ [c], ((r.selection g).choice? root).isSome := by
    rw [List.forall_mem_singleton, choice]
    rfl
  obtain ⟨visits, walk⟩ := founded.selection.exists_survey rooted
  have spent := Selection.dagCost_eq_ok.2 ⟨visits, walk, rfl⟩
  obtain ⟨total, recorded, _, same⟩ := reached.recorded_total one choice spent
  refine ⟨total, recorded, ?_⟩
  rw [spent, same]
  intro d e _ use
  obtain ⟨entry, node, _, held, stored, child, _⟩ := founded.uses use
  exact reached.improvedAfter careful_byBills once held stored child

end Bills

end Plan

/-- Where an extraction one node at a time succeeds without improving a class twice, what it has recorded for the
choice of a class is the dag cost of the class. No class improves twice if each has one node. -/
theorem Settings.recorded_eq_dagCost [ExactCost α] (settings : Settings)
    (sequential : settings.extractor = .greedyDag) (g : EGraph α) (roots : List ClassId)
    (poll : Nat → Bool) :
    let outcome := Id.run (settings.run g roots fun n => pure (poll n))
    (∀ s, outcome.selection = .ok s → (outcome.installs.map Install.eclass).Nodup →
      ∀ c id, s.choice? c = some id →
        ∃ total, s.candidates.get? id = some (some total) ∧ s.dagCost g [c] = .ok total) ∧
    ((∀ c ∈ g.classes, (g.membersOf c).length = 1) →
      (outcome.installs.map Install.eclass).Nodup) := by
  intro outcome
  unfold outcome run
  rw [sequential]
  simp only [Plan.extract_eq_timedRun, List.map_reverse, List.nodup_reverse]
  obtain ⟨_, reached⟩ := Plan.exists_reached ((Plan.greedy settings .single).goes_timed g poll
    ((Plan.greedy settings .single).stepLimit g) .start)
  constructor
  · intro s ok once c id choice
    obtain ⟨rfl, _⟩ := Run.conclude_eq_ok ok
    rw [Run.candidates_selection]
    exact reached.recorded_of_once rfl once choice
  · exact reached.nodup_installs rfl

section Once
set_option maxRecDepth 100000

/-- A graph of one node a class: the root stands above classes 0, 1 and 2, of which the last two share the first,
and class 4 above itself. -/
def kiteGraph : EGraph ℚ≥0 :=
  (Draft.ofNodes [((0 : UInt32), ([] : List UInt32), .divNat 8 1), (1, [0], 1), (2, [0, 0], 1),
    (3, [1, 2, 0], 0), (4, [4], 1)] [3]).toGraph.toOption.get (by decide +kernel)

def kiteSelection : Selection ℚ≥0 :=
  (({} : Settings).untimed kiteGraph kiteGraph.roots).toOption.get (by decide +kernel)

/-- The same with a leaf for class 3 that its first node does not improve on, below another root. -/
def tiltedGraph : EGraph ℚ≥0 :=
  (Draft.ofNodes [((0 : UInt32), ([] : List UInt32), .divNat 8 1), (1, [0], 1), (2, [0, 0], 1),
    (3, [1, 2, 0], 0), (3, [], .divNat 9 1), (5, [3, 1], 1)] [5]).toGraph.toOption.get
      (by decide +kernel)

def tiltedSelection : Selection ℚ≥0 :=
  (({} : Settings).untimed tiltedGraph tiltedGraph.roots).toOption.get (by decide +kernel)

theorem tiltedSelection_recorded :
    (∃ total, kiteSelection.candidates.get? ⟨⟨3⟩, 0⟩ = some (some total) ∧
      kiteSelection.dagCost kiteGraph [⟨3⟩] = .ok total) ∧
    tiltedSelection.candidates.get? ⟨⟨3⟩, 0⟩ = some (some 10) ∧
      tiltedSelection.choice? ⟨3⟩ = some ⟨⟨3⟩, 1⟩ ∧
      ∃ total, tiltedSelection.candidates.get? ⟨⟨5⟩, 0⟩ = some (some total) ∧
        tiltedSelection.dagCost tiltedGraph [⟨5⟩] = .ok total := by
  obtain ⟨kite, single⟩ :=
    Settings.recorded_eq_dagCost {} rfl kiteGraph kiteGraph.roots fun _ => false
  obtain ⟨tilted, _⟩ :=
    Settings.recorded_eq_dagCost {} rfl tiltedGraph tiltedGraph.roots fun _ => false
  have alone : ∀ c ∈ kiteGraph.classes, (kiteGraph.membersOf c).length = 1 := by decide +kernel
  have once : ((Id.run (({} : Settings).run tiltedGraph tiltedGraph.roots
      fun _ => pure false)).installs.map Install.eclass).Nodup := by decide +kernel
  exact ⟨kite kiteSelection (ok_get_toOption _) (single alone) ⟨3⟩ ⟨⟨3⟩, 0⟩ (by decide +kernel),
    by decide +kernel, by decide +kernel,
    tilted tiltedSelection (ok_get_toOption _) once ⟨5⟩ ⟨⟨5⟩, 0⟩ (by decide +kernel)⟩

end Once

end Extraction
