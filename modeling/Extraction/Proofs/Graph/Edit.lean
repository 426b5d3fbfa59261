import Extraction.Proofs.Graph.Redundancy

/-! Edits of a draft, one after the other. An edit stores one node under a new identity, or takes nodes out,
or leaves the nodes alone; the next index of a class never falls, so an identity that is given out once is not
given out again, not even after its node has been taken out. -/
namespace Extraction

variable {α : Type} [Cost α]

/-- What can be done to a draft. -/
inductive Edit (α : Type) where
  | push (c : ClassId) (op : String) (children : List ClassId) (cost : α)
  | addNode (id : NodeId) (node : Node α)
  | intern (name : String)
  | addRoot (c : ClassId)
  | removeNodes (doomed : List NodeId)
  | dropRedundant
  /-- Seals the draft and opens it again. -/
  | reseal

/-- What an edit makes of a draft. Where it fails, what it has done so far stays. -/
def Edit.apply (d : Draft α) : Edit α → Draft α
  | push c op children cost => (d.push c op children cost).2
  | addNode id node =>
    match d.addNode id node with
    | .ok d' => d'
    | .error _ => d
  | intern name => (d.intern name).2
  | addRoot c => d.addRoot c
  | removeNodes doomed => d.removeNodes doomed
  | dropRedundant => d.dropRedundant
  | reseal =>
    match d.toGraph with
    | .ok g => g.reopen
    | .error _ => d

namespace Draft

/-- The draft after several edits. -/
def edited (d : Draft α) (edits : List (Edit α)) : Draft α := edits.foldl Edit.apply d

/-- What is asked of a node that is let in. -/
structure Admits (d : Draft α) (id : NodeId) (node : Node α) : Prop where
  number : Cost.isNaN node.cost = false
  owner : id.owner = node.eclass
  finite : Cost.isFinite node.cost = true
  nonnegative : ¬ node.cost < 0
  last : id.index ≠ 0xffffffff
  known : (d.ops.name? node.op).isSome
  fresh : id ∉ d.nodes.keys

theorem addNode_eq_ok_iff {d d' : Draft α} {id : NodeId} {node : Node α} :
    d.addNode id node = .ok d' ↔ ∃ h : d.Admits id node,
      d' = d.append id node h.owner h.finite h.nonnegative h.last h.known h.fresh := by
  unfold addNode
  constructor
  · intro ok
    repeat' split at ok
    all_goals try cases ok
    rename_i number owner finite nonnegative last known fresh
    exact ⟨⟨Bool.eq_false_iff.2 number, owner, finite, nonnegative, last, known, fresh⟩, rfl⟩
  · rintro ⟨h, rfl⟩
    simp only [h.number, h.owner, h.finite, h.nonnegative, h.last, h.known, h.fresh]
    rfl

/-- A node is turned away as a duplicate only if its identity is taken. -/
theorem mem_keys_of_duplicate {d : Draft α} {id id' : NodeId} {node : Node α}
    (refused : d.addNode id node = .error (.duplicateNode id')) : id ∈ d.nodes.keys := by
  unfold addNode at refused
  repeat' split at refused
  all_goals try cases refused
  assumption

/-- What an edit does to the nodes and the next indices. -/
inductive Change (d d' : Draft α) : Prop
  | same (nodes : d'.nodes = d.nodes) (next : d'.nextIndex = d.nextIndex)
  | stored (id : NodeId) (node : Node α) (fresh : id ∉ d.nodes.keys)
      (nodes : d'.nodes.toList = d.nodes.toList ++ [(id, node)])
      (next : d'.nextIndex = useIndex d.nextIndex id.owner (id.index + 1))
  | removed (p : NodeId → Node α → Bool) (nodes : d'.nodes = d.nodes.filter p)
      (next : d'.nextIndex = d.nextIndex)

theorem change_of_addNode {d d' : Draft α} {id : NodeId} {node : Node α}
    (ok : d.addNode id node = .ok d') : d.Change d' := by
  obtain ⟨h, rfl⟩ := addNode_eq_ok_iff.1 ok
  exact .stored id node h.fresh (OrderedMap.toList_insert_of_notMem node h.fresh) rfl

/-- A name that comes in leaves nodes and next indices alone. -/
theorem Change.of_addOp {d d' : Draft α} {name : String} : (d.addOp name).Change d' → d.Change d'
  | .same nodes next => .same nodes next
  | .stored id node fresh nodes next => .stored id node fresh nodes next
  | .removed p nodes next => .removed p nodes next

end Draft

theorem Edit.change (d : Draft α) (e : Edit α) : d.Change (e.apply d) := by
  cases e with
  | push c op children cost =>
    simp only [apply, Draft.push, Draft.intern]
    split
    · exact .same rfl rfl
    split
    · rename_i added
      exact (Draft.change_of_addNode added).of_addOp
    · exact .same rfl rfl
  | addNode id node =>
    simp only [apply]
    split
    · rename_i added
      exact Draft.change_of_addNode added
    · exact .same rfl rfl
  | intern name => exact .same rfl rfl
  | addRoot c => exact .same rfl rfl
  | removeNodes doomed => exact .removed (fun id _ => !doomed.contains id) rfl rfl
  | dropRedundant => exact .removed (fun id _ => !d.redundant.contains id) rfl rfl
  | reseal =>
    simp only [apply]
    split
    · rename_i g ok
      rw [EGraph.reopen, Draft.toGraph_eq_ok_iff.1 ok]
      exact .same rfl rfl
    · exact .same rfl rfl

theorem le_getD_useIndex (next : Std.TreeMap ClassId UInt32) (c d : ClassId) (after : UInt32) :
    next.getD d 0 ≤ (useIndex next c after).getD d 0 := by
  rw [getD_useIndex]
  split
  · rename_i same
    subst same
    rw [UInt32.le_iff_toNat_le]
    change _ ≤ UInt32.toNat (if _ ≤ _ then _ else _)
    split
    · rename_i le
      exact UInt32.le_iff_toNat_le.1 le
    · exact Nat.le_refl _
  · exact UInt32.le_refl _

namespace Draft

/-- A next index never falls. -/
theorem Change.freshIndex_le {d d' : Draft α} (change : d.Change d') (c : ClassId) :
    d.freshIndex c ≤ d'.freshIndex c := by
  cases change with
  | same nodes next => rw [freshIndex, freshIndex, next]; exact UInt32.le_refl _
  | stored id node fresh nodes next =>
    rw [freshIndex, freshIndex, next]
    exact le_getD_useIndex _ _ _ _
  | removed p nodes next => rw [freshIndex, freshIndex, next]; exact UInt32.le_refl _

theorem freshIndex_le_edited (d : Draft α) (edits : List (Edit α)) (c : ClassId) :
    d.freshIndex c ≤ (d.edited edits).freshIndex c := by
  induction edits generalizing d with
  | nil => exact UInt32.le_refl _
  | cons e edits ih => exact UInt32.le_trans ((e.change d).freshIndex_le c) (ih (e.apply d))

theorem edited_append (d : Draft α) (edits more : List (Edit α)) :
    d.edited (edits ++ more) = (d.edited edits).edited more := List.foldl_append

/-- The next identity of a class was not taken before, whatever has been removed since. -/
theorem notMem_keys_of_prefix (start : Draft α) {earlier edits : List (Edit α)}
    (before : earlier <+: edits) (c : ClassId) :
    (⟨c, (start.edited edits).freshIndex c⟩ : NodeId) ∉ (start.edited earlier).nodes.keys := by
  obtain ⟨later, rfl⟩ := before
  rw [edited_append]
  intro taken
  obtain ⟨e, stored, same⟩ := List.mem_map.1 taken
  have below := ((start.edited earlier).accepted e stored).indexed
  rw [same] at below
  have grown := (start.edited earlier).freshIndex_le_edited later c
  exact absurd (UInt32.lt_of_lt_of_le below grown) (UInt32.lt_irrefl _)

/-- What a push comes to: the identity that is next in the class, or why the node is not let in. -/
theorem push_cases (d : Draft α) (c : ClassId) (op : String) (children : List ClassId) (cost : α) :
    (d.push c op children cost).1 = .ok ⟨c, d.freshIndex c⟩ ∨
      ∃ error, (d.push c op children cost).1 = .error error ∧
        ∀ id, error = .duplicateNode id → (⟨c, d.freshIndex c⟩ : NodeId) ∈ d.nodes.keys := by
  simp only [push, intern]
  split
  · exact .inr ⟨_, rfl, fun _ same => by cases same⟩
  split
  · exact .inl rfl
  · rename_i error refused
    refine .inr ⟨error, rfl, ?_⟩
    rintro id rfl
    exact mem_keys_of_duplicate (d := d.addOp op) refused

/-- However a draft has been edited, each of its nodes lies in the class its identity names, costs a finite
amount that is not negative, applies a known operator and has an index that is used up. The identity that
a push gives out was never taken before. -/
theorem edits_fresh (start : Draft α) (edits : List (Edit α)) :
    (∀ e ∈ (start.edited edits).nodes.toList,
      e.1.owner = e.2.eclass ∧ Cost.isFinite e.2.cost = true ∧ ¬ e.2.cost < 0 ∧
      ((start.edited edits).ops.name? e.2.op).isSome ∧
      e.1.index < (start.edited edits).freshIndex e.1.owner) ∧
    ∀ c op children cost,
      (∀ id, ((start.edited edits).push c op children cost).1 = .ok id →
        ∀ earlier, earlier <+: edits → id ∉ (start.edited earlier).nodes.keys) ∧
      ∀ id, ((start.edited edits).push c op children cost).1 ≠ .error (.duplicateNode id) := by
  constructor
  · intro e stored
    have accepted := (start.edited edits).accepted e stored
    exact ⟨accepted.owner, accepted.finite, accepted.nonnegative, accepted.known, accepted.indexed⟩
  · intro c op children cost
    obtain ok | ⟨error, refused, duplicate⟩ := (start.edited edits).push_cases c op children cost
    · rw [ok]
      constructor
      · rintro _ ⟨⟩ earlier before
        exact start.notMem_keys_of_prefix before c
      · exact fun id same => by cases same
    · rw [refused]
      constructor
      · exact fun id same => by cases same
      · rintro id ⟨⟩
        exact start.notMem_keys_of_prefix List.prefix_rfl c (duplicate id rfl)

section Turnover
set_option maxRecDepth 100000

/-- Two nodes come into class 0, and the second one is taken out again. -/
def turnover : List (Edit Float) :=
  [.push ⟨0⟩ "x" [] 1, .push ⟨0⟩ "y" [⟨1⟩] 2, .removeNodes [⟨⟨0⟩, 1⟩]]

/-- The node that comes in after the removal is stored, with the index 2: the index 1 is free and not given out
again. -/
theorem turnover_fresh : ((∅ : Draft Float).edited turnover).nodes.keys = [⟨⟨0⟩, 0⟩] ∧
    ∃ d : Draft Float, ((∅ : Draft Float).edited turnover).push ⟨0⟩ "z" [] 3 = (.ok ⟨⟨0⟩, 2⟩, d) ∧
      d.nodes.toList.map (fun e => (e.1, e.2.cost)) = [(⟨⟨0⟩, 0⟩, 1), (⟨⟨0⟩, 2⟩, 3)] ∧
      ∀ earlier, earlier <+: turnover → ⟨⟨0⟩, 2⟩ ∉ ((∅ : Draft Float).edited earlier).nodes.keys := by
  have given : (((∅ : Draft Float).edited turnover).push ⟨0⟩ "z" [] 3).1.toOption = some ⟨⟨0⟩, 2⟩ := by
    decide +kernel
  have ok := eq_ok_of_toOption given
  have fresh := ((edits_fresh ∅ turnover).2 ⟨0⟩ "z" [] 3).1 ⟨⟨0⟩, 2⟩ ok
  exact ⟨by decide +kernel, _, Prod.ext ok rfl, by decide +kernel, fresh⟩

end Turnover

end Draft

end Extraction
