import Extraction.Proofs.Graph.Edit

/-! Calls that fail. A call changes the tables of a draft one after the other and does not take back what it has
written; since it makes all its checks before it stores a node, a refused node leaves no trace but the name of
its operator. What a push comes to hangs on the next index of its class and on the cost alone, so that a refusal
shows in no later identity. -/
namespace Extraction
open Std

namespace OpTable

theorem insert_of_mem {t : OpTable} {name : String} (known : name ∈ t.names) : t.insert name = t := dif_pos known

theorem names_insert_of_notMem {t : OpTable} {name : String} (fresh : name ∉ t.names) :
    (t.insert name).names = t.names ++ [name] := congrArg names (dif_neg fresh)

/-- An interned name has a position in the table, even where positions no longer fit in a word. -/
theorem isSome_name?_intern (t : OpTable) (name : String) :
    ((t.intern name).2.name? (t.intern name).1).isSome := by
  have word : (t.names.idxOf name).toUInt32.toNat ≤ t.names.idxOf name := Nat.mod_le _ _
  have bound : t.names.idxOf name < (t.insert name).names.length := by
    by_cases known : name ∈ t.names
    · rw [insert_of_mem known]
      exact List.idxOf_lt_length_iff.2 known
    · rw [names_insert_of_notMem known, List.length_append, List.idxOf_eq_length known]
      exact Nat.lt_succ_self _
  exact Option.isSome_iff_exists.2 ⟨_, List.getElem?_eq_getElem (Nat.lt_of_le_of_lt word bound)⟩

end OpTable

/-- The tables of a draft. Part way through a call they need not fit together. -/
structure Tables (α : Type) where
  nodes : OrderedMap NodeId (Node α)
  roots : List ClassId
  ops : OpTable
  nextIndex : TreeMap ClassId UInt32

/-- A call on the tables. What it has written when it fails stays written. -/
abbrev Call (α β : Type) := ExceptT (GraphError α) (StateM (Tables α)) β

namespace Call
variable {α β : Type} {p : Prop} [Decidable p] {error : GraphError α} {rest : Unit → Call α β}

/-- Fails where something holds that must not. -/
def refuse (p : Prop) [Decidable p] (error : GraphError α) : Call α Unit :=
  if p then throw error else pure ()

theorem run_refuse_of_holds (holds : p) (t : Tables α) :
    (refuse p error >>= rest).run t = (.error error, t) := by
  rw [refuse, if_pos holds]
  rfl

theorem run_refuse_of_not (fails : ¬ p) (t : Tables α) :
    (refuse p error >>= rest).run t = (rest ()).run t := by
  rw [refuse, if_neg fails]
  rfl

theorem run_get (rest : Tables α → Call α β) (t : Tables α) :
    ((get : Call α (Tables α)) >>= rest).run t = (rest t).run t := rfl

def intern (name : String) : Call α OpId :=
  modifyGet fun t => ((t.ops.intern name).1, { t with ops := (t.ops.intern name).2 })

theorem run_intern (name : String) (rest : OpId → Call α β) (t : Tables α) :
    (intern name >>= rest).run t =
      (rest (t.ops.intern name).1).run { t with ops := (t.ops.intern name).2 } := rfl

/-- A call that goes on after another one fails where that one fails, with what it has written. -/
theorem run_bind {γ : Type} (call : Call α β) (rest : β → Call α γ) (t : Tables α) :
    (call >>= rest).run t =
      match call.run t with
      | (.ok b, t') => (rest b).run t'
      | (.error e, t') => (.error e, t') := by
  change ExceptT.bindCont rest (call.run t).1 (call.run t).2 = _
  obtain ⟨result, t'⟩ := call.run t
  cases result <;> rfl

variable [Cost α]

def addNode (id : NodeId) (node : Node α) : Call α Unit := do
  refuse (Cost.isNaN node.cost) (.nanCost id)
  refuse (id.owner ≠ node.eclass) (.classMismatch id node.eclass)
  refuse (Cost.isFinite node.cost ≠ true) (.nonFiniteCost id node.cost)
  refuse (node.cost < 0) (.negativeCost id node.cost)
  refuse (id.index = 0xffffffff) (.indexOutOfRange id)
  let t ← get
  refuse ((t.ops.name? node.op).isNone) (.unknownOp id node.op)
  refuse (id ∈ t.nodes.keys) (.duplicateNode id)
  modify fun t => { t with nodes := t.nodes.insert id node }
  modify fun t => { t with nextIndex := useIndex t.nextIndex id.owner (id.index + 1) }

def push (c : ClassId) (op : String) (children : List ClassId) (cost : α) : Call α NodeId := do
  let t ← get
  let id : NodeId := ⟨c, t.nextIndex.getD c 0⟩
  refuse (Cost.isNaN cost) (.nanCost id)
  let op ← intern op
  addNode id ⟨op, children, c, cost⟩
  return id

end Call

variable {α : Type} [Cost α]

namespace Draft

def tables (d : Draft α) : Tables α := ⟨d.nodes, d.roots, d.ops, d.nextIndex⟩

/-- Letting a node in comes to the same when its checks and writes are made one by one. -/
theorem run_addNode (d : Draft α) (id : NodeId) (node : Node α) :
    (Call.addNode id node).run d.tables =
      match d.addNode id node with
      | .ok d' => (.ok (), d'.tables)
      | .error e => (.error e, d.tables) := by
  unfold Call.addNode addNode
  by_cases nan : Cost.isNaN node.cost
  · rw [Call.run_refuse_of_holds nan, if_pos nan]
  rw [Call.run_refuse_of_not nan, if_neg nan]
  by_cases owner : id.owner = node.eclass
  rotate_left
  · rw [Call.run_refuse_of_holds owner, dif_neg owner]
  rw [Call.run_refuse_of_not (not_not.2 owner), dif_pos owner]
  by_cases finite : Cost.isFinite node.cost = true
  rotate_left
  · rw [Call.run_refuse_of_holds finite, dif_neg finite]
  rw [Call.run_refuse_of_not (not_not.2 finite), dif_pos finite]
  by_cases negative : node.cost < 0
  · rw [Call.run_refuse_of_holds negative, dif_pos negative]
  rw [Call.run_refuse_of_not negative, dif_neg negative]
  by_cases last : id.index = 0xffffffff
  · rw [Call.run_refuse_of_holds last, dif_pos last]
  rw [Call.run_refuse_of_not last, dif_neg last, Call.run_get]
  by_cases known : (d.ops.name? node.op).isSome
  rotate_left
  · have unknown : (d.tables.ops.name? node.op).isNone := by simpa [tables] using known
    rw [Call.run_refuse_of_holds unknown, dif_neg known]
  have found : ¬ (d.tables.ops.name? node.op).isNone := by
    simpa [tables, ← Option.isSome_iff_ne_none] using known
  rw [Call.run_refuse_of_not found, dif_pos known]
  by_cases stored : id ∈ d.nodes.keys
  · rw [dif_pos stored]
    exact Call.run_refuse_of_holds stored d.tables
  · rw [dif_neg stored]
    exact Call.run_refuse_of_not stored d.tables

theorem addOp_of_mem {d : Draft α} {name : String} (known : name ∈ d.ops.names) : d.addOp name = d := by
  have kept : d.ops.insert name = d.ops := OpTable.insert_of_mem known
  cases d
  simp only [addOp]
  congr

/-- A push whose cost is a number brings the name in and lets the node in under the next identity. -/
theorem push_of_number {cost : α} (number : ¬ Cost.isNaN cost) (d : Draft α) (c : ClassId) (op : String)
    (children : List ClassId) :
    d.push c op children cost =
      match (d.addOp op).addNode ⟨c, d.freshIndex c⟩ ⟨(d.ops.intern op).1, children, c, cost⟩ with
      | .ok d' => (.ok ⟨c, d.freshIndex c⟩, d')
      | .error e => (.error e, d.addOp op) := by
  rw [push, if_neg number]
  rfl

/-- A push comes to the same when its steps are made one by one. -/
theorem run_push (d : Draft α) (c : ClassId) (op : String) (children : List ClassId) (cost : α) :
    (Call.push c op children cost).run d.tables =
      ((d.push c op children cost).1, (d.push c op children cost).2.tables) := by
  unfold Call.push
  rw [Call.run_get]
  by_cases nan : Cost.isNaN cost
  · rw [Call.run_refuse_of_holds nan, push, if_pos nan]
    rfl
  rw [Call.run_refuse_of_not nan, Call.run_intern, push_of_number nan]
  let id : NodeId := ⟨c, d.freshIndex c⟩
  let node : Node α := ⟨(d.ops.intern op).1, children, c, cost⟩
  change (Call.addNode id node >>= fun _ => pure id).run (d.addOp op).tables = _
  rw [Call.run_bind, run_addNode]
  cases (d.addOp op).addNode id node <;> rfl

/-- Why a node of this cost is not let in under the next identity of its class. -/
def objection? (id : NodeId) (cost : α) : Option (GraphError α) :=
  if Cost.isNaN cost then some (.nanCost id)
  else if Cost.isFinite cost ≠ true then some (.nonFiniteCost id cost)
  else if cost < 0 then some (.negativeCost id cost)
  else if id.index = 0xffffffff then some (.indexOutOfRange id)
  else none

/-- What a push comes to. The draft counts for it by the next index of the class only: no push fails for its
operator or for its identity. -/
theorem push_eq (d : Draft α) (c : ClassId) (op : String) (children : List ClassId) (cost : α) :
    match objection? ⟨c, d.freshIndex c⟩ cost with
    | some e => d.push c op children cost = (.error e, if Cost.isNaN cost then d else d.addOp op)
    | none => ∃ d', d.push c op children cost = (.ok ⟨c, d.freshIndex c⟩, d') ∧
        d'.nextIndex = useIndex d.nextIndex c (d.freshIndex c + 1) := by
  by_cases nan : Cost.isNaN cost
  · rw [objection?, if_pos nan, push, if_pos nan, if_pos nan]
  have known : ((d.addOp op).ops.name? (d.ops.intern op).1).isSome := d.ops.isSome_name?_intern op
  have fresh : (⟨c, d.freshIndex c⟩ : NodeId) ∉ (d.addOp op).nodes.keys :=
    d.notMem_keys_of_prefix (List.prefix_rfl : ([] : List (Edit α)) <+: []) c
  rw [push_of_number nan, objection?, addNode, if_neg nan, if_neg nan, if_neg nan, dif_pos rfl]
  by_cases finite : Cost.isFinite cost = true
  rotate_left
  · rw [dif_neg finite, if_pos finite]
  rw [dif_pos finite, if_neg (not_not.2 finite)]
  by_cases negative : cost < 0
  · rw [dif_pos negative, if_pos negative]
  rw [dif_neg negative, if_neg negative]
  by_cases last : d.freshIndex c = 0xffffffff
  · rw [dif_pos last, if_pos last]
  rw [dif_neg last, if_neg last, dif_pos known, dif_neg fresh]
  exact ⟨_, rfl, rfl⟩

/-- A refused push leaves at most the name of its operator behind. -/
theorem push_snd_of_refused {d : Draft α} {c : ClassId} {op : String} {children : List ClassId} {cost : α}
    {error : GraphError α} (refused : (d.push c op children cost).1 = .error error) :
    (d.push c op children cost).2 = if Cost.isNaN cost then d else d.addOp op := by
  have outcome := d.push_eq c op children cost
  split at outcome
  · rw [outcome]
  · obtain ⟨d', accepted, -⟩ := outcome
    rw [accepted] at refused
    cases refused

/-- Drafts with the same next indices answer a push alike and go on alike. -/
theorem push_congr {d d' : Draft α} (same : d'.nextIndex = d.nextIndex) (c : ClassId) (op : String)
    (children : List ClassId) (cost : α) :
    (d'.push c op children cost).1 = (d.push c op children cost).1 ∧
      (d'.push c op children cost).2.nextIndex = (d.push c op children cost).2.nextIndex := by
  have next : d'.freshIndex c = d.freshIndex c := by rw [freshIndex, same, freshIndex]
  have one := d'.push_eq c op children cost
  have other := d.push_eq c op children cost
  rw [next] at one
  split at one <;> rename_i verdict <;> rw [verdict] at other
  · rw [one, other]
    refine ⟨rfl, ?_⟩
    split <;> exact same
  · obtain ⟨_, one, grown⟩ := one
    obtain ⟨_, other, grown'⟩ := other
    rw [one, other]
    exact ⟨rfl, by rw [grown, grown', same]⟩

end Draft

/-- An edit that brings no identity of its own changes the next indices alike wherever they are alike. A node with
an identity of its own may name an operator that only one of the drafts knows. -/
theorem Edit.nextIndex_congr {d d' : Draft α} (same : d'.nextIndex = d.nextIndex) {e : Edit α}
    (named : ∀ id node, e ≠ .addNode id node) : (e.apply d').nextIndex = (e.apply d).nextIndex := by
  cases e with
  | push c op children cost => exact (Draft.push_congr same c op children cost).2
  | addNode id node => exact absurd rfl (named id node)
  | intern name => exact same
  | addRoot c => exact same
  | removeNodes doomed => exact same
  | dropRedundant => exact same
  | reseal =>
    have reopened (d : Draft α) : (Edit.reseal.apply d).nextIndex = d.nextIndex := by
      simp only [apply]
      split
      · rename_i g ok
        rw [EGraph.reopen, Draft.toGraph_eq_ok_iff.1 ok]
      · rfl
    rw [reopened, reopened, same]

namespace Draft

theorem nextIndex_edited_congr {d d' : Draft α} (same : d'.nextIndex = d.nextIndex) {edits : List (Edit α)}
    (named : ∀ e ∈ edits, ∀ id node, e ≠ .addNode id node) :
    (d'.edited edits).nextIndex = (d.edited edits).nextIndex := by
  induction edits generalizing d d' with
  | nil => exact same
  | cons e edits ih =>
    rw [List.forall_mem_cons] at named
    exact ih (Edit.nextIndex_congr same named.1) named.2

/-- A node that is refused leaves all tables as they were, although they are written one after the other. A push
that is refused leaves at most its operator behind, as the last name of the table, and not even that where the
cost is no number: every node keeps its operator name, and later pushes give out the identities that they would
have given out without it. -/
theorem refused_leaves (d : Draft α) :
    (∀ id node error, d.addNode id node = .error error →
      (Call.addNode id node).run d.tables = (.error error, d.tables)) ∧
    ∀ c op children cost error d', d.push c op children cost = (.error error, d') →
      (Call.push c op children cost).run d.tables = (.error error, d'.tables) ∧
      d'.nodes = d.nodes ∧ d'.roots = d.roots ∧ d'.nextIndex = d.nextIndex ∧
      (d' = d ∨ Cost.isNaN cost = false ∧ op ∉ d.ops.names ∧ d'.ops.names = d.ops.names ++ [op]) ∧
      (∀ e ∈ d.nodes.toList, d'.ops.name? e.2.op = d.ops.name? e.2.op) ∧
      ∀ edits, (∀ e ∈ edits, ∀ id node, e ≠ .addNode id node) → ∀ c op children cost,
        ((d'.edited edits).push c op children cost).1 = ((d.edited edits).push c op children cost).1 := by
  constructor
  · intro id node error refused
    rw [run_addNode, refused]
  intro c op children cost error d' refused
  have left : d' = if Cost.isNaN cost then d else d.addOp op := by
    have left := push_snd_of_refused (congrArg Prod.fst refused)
    rwa [refused] at left
  have next : d'.nextIndex = d.nextIndex := by rw [left]; split <;> rfl
  refine ⟨?_, ?_, ?_, next, ?_, ?_, ?_⟩
  · rw [run_push, refused]
  · rw [left]; split <;> rfl
  · rw [left]; split <;> rfl
  · by_cases nan : Cost.isNaN cost
    · rw [left, if_pos nan]
      exact .inl rfl
    rw [left, if_neg nan]
    by_cases known : op ∈ d.ops.names
    · exact .inl (addOp_of_mem known)
    · exact .inr ⟨Bool.eq_false_iff.2 nan, known, OpTable.names_insert_of_notMem known⟩
  · intro e stored
    obtain ⟨name, found⟩ := Option.isSome_iff_exists.1 (d.accepted e stored).known
    rw [found, left]
    split
    · exact found
    · exact OpTable.name?_insert op found
  · intro edits named c op children cost
    exact (push_congr (nextIndex_edited_congr next named) c op children cost).1

end Draft

end Extraction
