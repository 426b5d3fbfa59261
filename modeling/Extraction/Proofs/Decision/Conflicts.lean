import Extraction.Decision
import Extraction.Proofs.Collections
import Mathlib.Logic.Relation

/-! Decisions that are followed one after the other. What they come to depends on the nodes of the graph that
they use, each at its first mention, and on nothing else; they fail at the first decision for a node whose class
has got another one. -/
namespace Extraction.Decision

variable {α : Type} [Cost α] {g : EGraph α} {before : List Decision} {d : Decision}
  {s : Selection α} {first second id : NodeId}

/-- The nodes of the graph that are decided to be used, in the order of the decisions. -/
def usedNodes (g : EGraph α) (decisions : List Decision) : List NodeId :=
  decisions.filterMap fun d =>
    match d with
    | node id true => if (g.node? id).isSome then some id else none
    | _ => none

/-- No class has two of the nodes. -/
def Agree (ids : List NodeId) : Prop := ∀ a ∈ ids, ∀ b ∈ ids, a.owner = b.owner → a = b

/-- What the decisions before use is another node of the class of `second`. -/
structure Clashes (g : EGraph α) (before : List Decision) (first second : NodeId) : Prop where
  known : (g.node? second).isSome
  earlier : first ∈ usedNodes g before
  sibling : first.owner = second.owner
  other : first ≠ second

/-- A decision that makes no difference after the ones before it. -/
inductive Idle (g : EGraph α) (before : List Decision) : Decision → Prop
  | unused (id : NodeId) : Idle g before (.node id false)
  | eclass (c : ClassId) (used : Bool) : Idle g before (.eclass c used)
  | unknown {id : NodeId} (absent : g.node? id = none) (used : Bool) : Idle g before (.node id used)
  | repeated {d : Decision} (earlier : d ∈ before) : Idle g before d

/-- The second list has an idle decision more than the first. -/
def Pads (g : EGraph α) (decisions padded : List Decision) : Prop :=
  ∃ before d after, Idle g before d ∧ decisions = before ++ after ∧ padded = before ++ d :: after

/-- The selection has chosen what the decisions use. -/
structure Follows (g : EGraph α) (decisions : List Decision) (s : Selection α) : Prop where
  choices : s.choices.toList = (usedNodes g decisions).eraseDups.map fun id => (id.owner, id)

theorem mem_usedNodes {decisions : List Decision} :
    id ∈ usedNodes g decisions ↔ .node id true ∈ decisions ∧ (g.node? id).isSome := by
  rw [usedNodes, List.mem_filterMap]
  constructor
  · rintro ⟨d, mem, used⟩
    split at used
    · rename_i id'
      split at used
      · rename_i known
        obtain rfl := Option.some.inj used
        exact ⟨mem, known⟩
      · cases used
    · cases used
  · rintro ⟨mem, known⟩
    exact ⟨_, mem, if_pos known⟩

theorem usedNodes_append (before after : List Decision) :
    usedNodes g (before ++ after) = usedNodes g before ++ usedNodes g after := List.filterMap_append

theorem usedNodes_known (known : (g.node? id).isSome) : usedNodes g [.node id true] = [id] := by
  rw [usedNodes, List.filterMap_cons]
  simp only [known, if_true]
  rfl

/-- A decision uses a node of the graph, or it says nothing to a selection. -/
theorem uses_or_follow (g : EGraph α) (d : Decision) :
    (∃ id, d = .node id true ∧ (g.node? id).isSome) ∨
      usedNodes g [d] = [] ∧ ∀ s, follow g s d = .ok s := by
  rcases d with ⟨id, _ | _⟩ | _
  · exact .inr ⟨rfl, fun _ => rfl⟩
  · by_cases known : (g.node? id).isSome
    · exact .inl ⟨id, rfl, known⟩
    · have absent : (g.node? id).isNone = true := by simpa using known
      refine .inr ⟨?_, fun s => if_pos absent⟩
      rw [usedNodes, List.filterMap_cons]
      simp only [if_neg known]
      rfl
  · exact .inr ⟨rfl, fun _ => rfl⟩

theorem follow_eq (known : (g.node? id).isSome) : follow g s (.node id true) =
    match s.choice? id.owner with
    | none => .ok (s.choose id.owner id)
    | some first => if first = id then .ok s else .error (.conflict id.owner first id) := by
  have present : (g.node? id).isNone = false := Option.isNone_eq_false_iff.2 known
  rw [follow, present]
  exact if_neg Bool.false_ne_true

namespace Follows

theorem choice?_iff (h : Follows g before s) {c : ClassId} :
    s.choice? c = some id ↔ id ∈ usedNodes g before ∧ id.owner = c := by
  rw [Selection.choice?, OrderedMap.get?_eq_some_iff, h.choices, List.mem_map]
  constructor
  · rintro ⟨id', mem, same⟩
    obtain ⟨rfl, rfl⟩ := Prod.mk.inj same
    exact ⟨List.mem_eraseDups.1 mem, rfl⟩
  · rintro ⟨mem, rfl⟩
    exact ⟨id, List.mem_eraseDups.2 mem, rfl⟩

/-- A selection has one node for each class. -/
theorem agree (h : Follows g before s) : Agree (usedNodes g before) := by
  intro a mem b mem' sibling
  have choice := h.choice?_iff.2 ⟨mem, rfl⟩
  exact Option.some.inj (choice.symm.trans (h.choice?_iff.2 ⟨mem', sibling.symm⟩))

theorem follow_of_mem (h : Follows g before s) (again : id ∈ usedNodes g before) :
    follow g s (.node id true) = .ok s := by
  rw [follow_eq (mem_usedNodes.1 again).2, h.choice?_iff.2 ⟨again, rfl⟩]
  exact if_pos rfl

theorem follow_of_idle (h : Follows g before s) (idle : Idle g before d) : follow g s d = .ok s := by
  obtain ⟨id, rfl, known⟩ | ⟨_, ignored⟩ := uses_or_follow g d
  · refine h.follow_of_mem ?_
    cases idle with
    | unknown absent =>
      rw [absent] at known
      cases known
    | repeated earlier => exact mem_usedNodes.2 ⟨earlier, known⟩
  · exact ignored s

theorem follow_of_clashes (h : Follows g before s) (clash : Clashes g before first second) :
    follow g s (.node second true) = .error (.conflict second.owner first second) := by
  rw [follow_eq clash.known, h.choice?_iff.2 ⟨clash.earlier, clash.sibling⟩]
  exact if_neg clash.other

/-- A node whose class has none yet is chosen. -/
theorem follow_of_fresh (h : Follows g before s) (known : (g.node? id).isSome)
    (fresh : ∀ first ∈ usedNodes g before, first.owner ≠ id.owner) :
    ∃ t, follow g s (.node id true) = .ok t ∧ Follows g (before ++ [.node id true]) t := by
  have unchosen : s.choice? id.owner = none := by
    refine Option.eq_none_iff_forall_ne_some.2 fun first choice => ?_
    obtain ⟨mem, sibling⟩ := h.choice?_iff.1 choice
    exact fresh first mem sibling
  have new : id ∉ usedNodes g before := fun mem => fresh id mem rfl
  refine ⟨s.choose id.owner id, by rw [follow_eq known, unchosen], ⟨?_⟩⟩
  rw [Selection.choose, OrderedMap.toList_insert_of_notMem _ (OrderedMap.get?_eq_none_iff.1 unchosen),
    h.choices, usedNodes_append, usedNodes_known known, eraseDups_concat, if_neg new, List.map_append]
  rfl

/-- What uses no node that was not used before leaves the selection as it is. -/
theorem concat (h : Follows g before s) (old : ∀ id ∈ usedNodes g [d], id ∈ usedNodes g before) :
    Follows g (before ++ [d]) s := by
  have none : (usedNodes g [d]).removeAll (usedNodes g before) = [] := by
    refine List.filter_eq_nil_iff.2 fun id mem => ?_
    simpa using old id mem
  refine ⟨?_⟩
  rw [h.choices, usedNodes_append, List.eraseDups_append, none, List.eraseDups_nil, List.append_nil]

/-- One decision is followed unless it clashes with the ones before. -/
theorem step (h : Follows g before s) (d : Decision) :
    (∃ t, follow g s d = .ok t ∧ Follows g (before ++ [d]) t) ∨
      ∃ first second, d = .node second true ∧ Clashes g before first second := by
  obtain ⟨id, rfl, known⟩ | ⟨nothing, ignored⟩ := uses_or_follow g d
  · by_cases fresh : ∀ first ∈ usedNodes g before, first.owner ≠ id.owner
    · exact .inl (h.follow_of_fresh known fresh)
    · push Not at fresh
      obtain ⟨first, earlier, sibling⟩ := fresh
      by_cases same : first = id
      · subst same
        refine .inl ⟨s, h.follow_of_mem earlier, h.concat fun id mem => ?_⟩
        rw [usedNodes_known known, List.mem_singleton] at mem
        exact mem ▸ earlier
      · exact .inr ⟨first, id, rfl, known, earlier, sibling, same⟩
  · refine .inl ⟨s, ignored s, h.concat fun id mem => ?_⟩
    rw [nothing] at mem
    cases mem

end Follows

theorem follows_nil : Follows g [] ∅ := ⟨rfl⟩

theorem Clashes.not_agree (clash : Clashes g before first second) (after : List Decision) :
    ¬ Agree (usedNodes g (before ++ .node second true :: after)) := by
  intro agree
  have mem : first ∈ usedNodes g (before ++ .node second true :: after) := by
    rw [usedNodes_append]
    exact List.mem_append_left _ clash.earlier
  have mem' : second ∈ usedNodes g (before ++ .node second true :: after) :=
    mem_usedNodes.2 ⟨List.mem_append_right _ List.mem_cons_self, clash.known⟩
  exact clash.other (agree first mem second mem' clash.sibling)

theorem toSelection_append (before after : List Decision) :
    toSelection (before ++ after) g = toSelection before g >>= fun s => after.foldlM (follow g) s :=
  List.foldlM_append

/-- Decisions are followed to their end, or up to the first one that clashes. -/
theorem follows_or_clashes (g : EGraph α) (decisions : List Decision) :
    (∃ s, toSelection decisions g = .ok s ∧ Follows g decisions s) ∨
      ∃ before second after first, decisions = before ++ .node second true :: after ∧
        Agree (usedNodes g before) ∧ Clashes g before first second := by
  induction decisions using List.reverseRecOn with
  | nil => exact .inl ⟨∅, rfl, follows_nil⟩
  | append_singleton decisions d ih =>
    obtain ⟨s, done, h⟩ | ⟨before, second, after, first, rfl, agree, clash⟩ := ih
    · obtain ⟨t, more, h'⟩ | ⟨first, second, rfl, clash⟩ := h.step d
      · refine .inl ⟨t, ?_, h'⟩
        rw [toSelection_append, done]
        show [d].foldlM (follow g) s = _
        rw [List.foldlM_cons, more]
        rfl
      · exact .inr ⟨decisions, second, [], first, rfl, h.agree, clash⟩
    · exact .inr ⟨before, second, after ++ [d], first, by simp, agree, clash⟩

section Outcome
variable {decisions : List Decision}

theorem exists_follows (agree : Agree (usedNodes g decisions)) :
    ∃ s, toSelection decisions g = .ok s ∧ Follows g decisions s := by
  obtain done | ⟨before, second, after, first, rfl, _, clash⟩ := follows_or_clashes g decisions
  · exact done
  · exact absurd agree (clash.not_agree after)

theorem toSelection_of_clashes (agree : Agree (usedNodes g before))
    (clash : Clashes g before first second) (after : List Decision) :
    toSelection (before ++ .node second true :: after) g =
      .error (.conflict second.owner first second) := by
  obtain ⟨s, done, h⟩ := exists_follows agree
  rw [toSelection_append, done]
  show (.node second true :: after).foldlM (follow g) s = _
  rw [List.foldlM_cons, h.follow_of_clashes clash]
  rfl

theorem follows_of_toSelection (done : toSelection decisions g = .ok s) : Follows g decisions s := by
  obtain ⟨t, done', h⟩ | ⟨before, second, after, first, rfl, agree, clash⟩ :=
    follows_or_clashes g decisions
  · obtain rfl := Except.ok.inj (done.symm.trans done')
    exact h
  · cases (toSelection_of_clashes agree clash after).symm.trans done

theorem toSelection_eq_error_iff {e : DecisionError} : toSelection decisions g = .error e ↔
    ∃ before second after first, decisions = before ++ .node second true :: after ∧
      Agree (usedNodes g before) ∧ Clashes g before first second ∧
      e = .conflict second.owner first second := by
  constructor
  · intro failed
    obtain ⟨s, done, _⟩ | ⟨before, second, after, first, rfl, agree, clash⟩ :=
      follows_or_clashes g decisions
    · cases failed.symm.trans done
    · have named := toSelection_of_clashes agree clash after
      exact ⟨before, second, after, first, rfl, agree, clash,
        Except.error.inj (failed.symm.trans named)⟩
  · rintro ⟨before, second, after, first, rfl, agree, clash, rfl⟩
    exact toSelection_of_clashes agree clash after

theorem Pads.toSelection_eq {padded : List Decision} (pads : Pads g decisions padded) :
    toSelection padded g = toSelection decisions g := by
  obtain ⟨before, d, after, idle, rfl, rfl⟩ := pads
  obtain ⟨s, done, h⟩ | ⟨before, second, between, first, rfl, agree, clash⟩ := follows_or_clashes g before
  · rw [toSelection_append, toSelection_append, done]
    show (d :: after).foldlM (follow g) s = _
    rw [List.foldlM_cons, h.follow_of_idle idle]
  · -- What fails before the idle decision does not come to it.
    rw [List.append_assoc, List.append_assoc, List.cons_append, List.cons_append,
      toSelection_of_clashes agree clash, toSelection_of_clashes agree clash]

theorem toSelection_of_padded {others : List Decision} (same : Relation.EqvGen (Pads g) decisions others) :
    toSelection others g = toSelection decisions g := by
  induction same with
  | rel _ _ pads => exact pads.toSelection_eq
  | refl => rfl
  | symm _ _ _ ih => exact ih.symm
  | trans _ _ _ _ _ ih ih' => exact ih'.trans ih

end Outcome

/-- Decisions can be followed exactly if they use no two nodes of one class. Then the classes of the nodes that they
use have these nodes and no other class has one, in the order in which the nodes are first mentioned. Otherwise the
first decision that clashes with one before it is named, and the node that its class had got by then. No idle
decision, put in or left out wherever and however often, changes what comes of it. -/
theorem toSelection_decides (decisions : List Decision) (g : EGraph α) :
    ((∃ s, toSelection decisions g = .ok s) ↔ Agree (usedNodes g decisions)) ∧
      (∀ s, toSelection decisions g = .ok s →
        s.choices.toList = (usedNodes g decisions).eraseDups.map (fun id => (id.owner, id)) ∧
        ∀ c id, s.choice? c = some id ↔
          (.node id true ∈ decisions ∧ (g.node? id).isSome) ∧ id.owner = c) ∧
      (∀ e, toSelection decisions g = .error e ↔
        ∃ before second after first, decisions = before ++ .node second true :: after ∧
          Agree (usedNodes g before) ∧ Clashes g before first second ∧
          e = .conflict second.owner first second) ∧
      ∀ others, Relation.EqvGen (Pads g) decisions others →
        toSelection others g = toSelection decisions g := by
  refine ⟨⟨?_, ?_⟩, ?_, fun e => toSelection_eq_error_iff, fun others => toSelection_of_padded⟩
  · rintro ⟨s, done⟩
    exact (follows_of_toSelection done).agree
  · intro agree
    obtain ⟨s, done, _⟩ := exists_follows agree
    exact ⟨s, done⟩
  · intro s done
    have follows := follows_of_toSelection done
    exact ⟨follows.choices, fun c id => by rw [follows.choice?_iff, mem_usedNodes]⟩

end Extraction.Decision
