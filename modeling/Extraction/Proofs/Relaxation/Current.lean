import Extraction.Proofs.Relaxation.Shortcut

/-! Entries that are current. Where nodes are taken up one at a time, an entry is what its node would be
billed now as long as nothing that the node stands above has improved after its class. -/
namespace Extraction
open Std

variable {α β : Type} [Cost α]

/-- Of improvements, latest first, the last one of `c` came after the last one of `d`. -/
def ImprovedAfter (installs : List (Install α)) (c d : ClassId) : Prop :=
  (installs.map Install.eclass).idxOf c < (installs.map Install.eclass).idxOf d

omit [Cost α] in
theorem ImprovedAfter.of_cons {install : Install α} {installs : List (Install α)} {c d : ClassId}
    (other : install.eclass ≠ c) (after : ImprovedAfter (install :: installs) c d) :
    install.eclass ≠ d ∧ ImprovedAfter installs c d := by
  rw [ImprovedAfter, List.map_cons, List.idxOf_cons_ne _ other] at after
  by_cases same : install.eclass = d
  · rw [same, List.idxOf_cons_self] at after
    omega
  · rw [List.idxOf_cons_ne _ same] at after
    exact ⟨same, Nat.lt_of_succ_lt_succ after⟩

namespace Plan

/-- A round of one node has one winner at most. -/
theorem wins_of_single {plan : Plan α β} (one : plan.pace.size = 1) (g : EGraph α) (r : Run α β) :
    (plan.wins g r).toList = [] ∨ ∃ id entry,
      plan.evaluateIn g r.table id = .candidate entry ∧
        (plan.wins g r).toList = [(id.owner, entry)] := by
  rw [wins, batch, one]
  cases r.queue.items with
  | nil => exact .inl rfl
  | cons id rest =>
    have alone : plan.winners g r.table ((id :: rest).take 1) =
        weigh r.table ∅ (id, plan.evaluateIn g r.table id) := rfl
    rw [alone]
    cases evaluated : plan.evaluateIn g r.table id with
    | blocked | rejected => exact .inl rfl
    | candidate entry =>
      simp only [weigh, contend_eq]
      split
      · exact .inr ⟨id, entry, evaluated, rfl⟩
      · exact .inl rfl

section Bills
variable {prune : Bool} {passes : Nat} {pace : Pace} {g : EGraph α} {r : Run α (Bill α)}

/-- Without the shortcut, an evaluation depends on the entries of the children alone. -/
theorem billEvaluation_congr {table table' : Table α (Bill α)} {id : NodeId} {node : Node α}
    (same : ∀ d ∈ node.children, TreeMap.get? table' d = TreeMap.get? table d) :
    billEvaluation false table' id node = billEvaluation false table id node := by
  have values : node.distinctChildren.mapM table'.get? = node.distinctChildren.mapM table.get? :=
    mapM_congr fun d mem => same d (mem_distinctClasses.1 mem)
  simp only [billEvaluation, values, Bool.false_and]

/-- A class that improved after all that the node chosen for it stands above has the entry that the node would
be billed now. -/
def Current (g : EGraph α) (table : Table α (Bill α)) (installs : List (Install α)) : Prop :=
  ∀ c entry node, TreeMap.get? table c = some entry → g.node? entry.choice = some node →
    (∀ d ∈ node.children, ImprovedAfter installs c d) →
    billEvaluation false table entry.choice node = .candidate entry

theorem Current.insert {table : Table α (Bill α)} {installs : List (Install α)} {id : NodeId}
    {node : Node α} {entry : Entry α (Bill α)} {install : Install α}
    (current : Current g table installs) (stored : g.node? id = some node)
    (candidate : billEvaluation prune table id node = .candidate entry)
    (owner : install.eclass = node.eclass) :
    Current g (table.insert node.eclass entry) (install :: installs) := by
  have kept : ∀ {children : List ClassId}, node.eclass ∉ children →
      ∀ d ∈ children, TreeMap.get? (table.insert node.eclass entry) d = TreeMap.get? table d := by
    intro children apart d child
    rw [get?_insert, if_neg]
    rintro rfl
    exact apart child
  intro c entry' node' held stored' after
  rw [get?_insert] at held
  split at held
  · rename_i same
    subst same
    obtain rfl := Option.some.inj held
    have careful : (byBills (α := α) prune 1 .single).Careful := careful_byBills
    rw [careful.chooses candidate] at stored' ⊢
    obtain rfl := Option.some.inj (stored.symm.trans stored')
    rw [billEvaluation_congr (kept (apart_of_candidate candidate))]
    exact candidate_of_shortcut candidate
  · rename_i other
    have apart : node.eclass ∉ node'.children := fun child =>
      ((after _ child).of_cons (owner ▸ other)).1 owner
    rw [billEvaluation_congr (kept apart)]
    exact current c entry' node' held stored' fun d child =>
      ((after d child).of_cons (owner ▸ other)).2

theorem Reached.current (reached : (byBills prune passes pace).Reached g r) (one : pace.size = 1) :
    Current g r.table r.installs := by
  induction reached with
  | start => exact fun c entry node held => by cases held
  | step before step ih =>
    cases step with
    | pass => exact ih
    | round polls busy =>
      rename_i r
      rw [round_table, round_installs, Table.update]
      have one' : (byBills (α := α) prune passes pace).pace.size = 1 := one
      obtain none | ⟨id, won, evaluated, single⟩ := wins_of_single one' g r
      · rw [none]
        exact ih
      · rw [single]
        obtain ⟨node, stored, candidate⟩ := evaluateIn_eq_candidate.1 evaluated
        rw [EGraph.owner_of_node? stored]
        exact ih.insert stored candidate rfl

end Bills

end Plan

end Extraction
