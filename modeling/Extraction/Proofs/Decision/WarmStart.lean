import Extraction.Proofs.Decision.RoundTrip
import Extraction.Proofs.Selection.Agreement
import Extraction.Proofs.Selection.Validity

/-! Selections that are handed on as decisions. Of a selection that passes the check, the decisions to start from
keep the choices below the roots and nothing else, and that is all that the check and the metrics look at. -/
namespace Extraction

variable {α : Type} [Cost α] {g : EGraph α}

namespace Selection
variable {s : Selection α} {roots : List ClassId} {active : List NodeId}

/-- A chosen node is active exactly if its class is below the roots. -/
theorem Proper.mem_activeNodes (proper : s.Proper g) (ok : s.activeNodes g roots = .ok active)
    {c : ClassId} {id : NodeId} (choice : s.choice? c = some id) :
    id ∈ active ↔ s.Below g roots c := by
  obtain ⟨visits, walk, rfl⟩ := activeNodes_eq_ok.1 ok
  obtain ⟨drawn, visited⟩ := drawn_of_survey walk
  rw [List.mem_mergeSort, ← visited c]
  constructor
  · intro mem
    obtain ⟨v, taken, rfl⟩ := List.mem_map.1 mem
    obtain ⟨_, choice', _⟩ := chosen_eq_ok.1 (drawn.chosen v taken)
    obtain ⟨node, stored, owner⟩ := proper _ _ choice
    obtain ⟨node', stored', owner'⟩ := proper _ _ choice'
    obtain rfl := Option.some.inj (stored.symm.trans stored')
    rw [← owner, owner']
    exact List.mem_map_of_mem taken
  · intro mem
    obtain ⟨v, taken, rfl⟩ := List.mem_map.1 mem
    obtain ⟨_, choice', _⟩ := chosen_eq_ok.1 (drawn.chosen v taken)
    obtain rfl := Option.some.inj (choice.symm.trans choice')
    exact List.mem_map_of_mem taken

/-- A part of a valid selection that holds its choices below the roots is valid. -/
theorem Valid.of_part {t : Selection α} (valid : s.Valid g)
    (part : ∀ e ∈ t.choices.toList, e ∈ s.choices.toList)
    (same : ∀ c, s.Below g g.roots c → s.choice? c = t.choice? c) : t.Valid g := by
  obtain ⟨visits, walk⟩ := valid.exists_postOrder
  rw [postOrder_congr same] at walk
  have below := (t.postOrder_ok_iff g g.roots).1 ⟨visits, walk⟩
  refine ⟨valid.rooted, ?_, ?_, fun c inner => (below c inner).2⟩
  · intro c id choice
    exact valid.proper c id (OrderedMap.get?_eq_some_iff.2 (part _ (OrderedMap.get?_eq_some_iff.1 choice)))
  · intro c inner
    obtain ⟨v, member⟩ := (below c inner).1
    rw [(chosenMember_eq_ok.1 member).2.1]
    rfl

end Selection

namespace Decision

/-- Whether a decision is about a node. -/
def isNode : Decision → Bool
  | node .. => true
  | eclass .. => false

/-- What is decided for a choice: its node is used if it is active, and otherwise its class is not. -/
def opening (active : List NodeId) (e : ClassId × NodeId) : Decision :=
  if active.contains e.2 then .node e.2 true else .eclass e.1 false

theorem isNode_opening (active : List NodeId) (e : ClassId × NodeId) :
    (opening active e).isNode = active.contains e.2 := by
  unfold opening
  split <;> simp_all [isNode]

theorem warmStart_eq_ok {s : Selection α} {decisions : List Decision} :
    warmStart s g = .ok decisions ↔
      ∃ active, s.activeNodes g g.roots = .ok active ∧ decisions = s.choices.toList.map (opening active) := by
  constructor
  · intro ok
    obtain ⟨active, found, listed⟩ := exists_of_bind_eq_ok ok
    exact ⟨active, found, (Except.ok.inj listed).symm⟩
  · rintro ⟨active, found, rfl⟩
    rw [warmStart, found]
    rfl

theorem follow_node {t : Selection α} {id : NodeId} (stored : (g.node? id).isSome)
    (fresh : id.owner ∉ t.choices.keys) : follow g t (.node id true) = .ok (t.choose id.owner id) := by
  have none : t.choice? id.owner = none := OrderedMap.get?_eq_none_iff.2 fresh
  have known : (g.node? id).isNone = false := Option.isNone_eq_false_iff.2 stored
  simp only [follow, known, none, Bool.false_eq_true, if_false]

/-- Choices of distinct classes are taken over one by one where they are active. -/
theorem foldlM_follow {active : List NodeId} {entries : List (ClassId × NodeId)} {t : Selection α}
    (stored : ∀ e ∈ entries, e.2.owner = e.1 ∧ (g.node? e.2).isSome)
    (distinct : (t.choices.keys ++ entries.map Prod.fst).Nodup) :
    ∃ t', (entries.map (opening active)).foldlM (follow g) t = .ok t' ∧
      t'.choices.toList = t.choices.toList ++ entries.filter fun e => active.contains e.2 := by
  induction entries generalizing t with
  | nil => exact ⟨t, rfl, (List.append_nil _).symm⟩
  | cons e entries ih =>
    obtain ⟨⟨owner, known⟩, others⟩ := List.forall_mem_cons.1 stored
    rw [List.map_cons, List.foldlM_cons, opening]
    by_cases used : active.contains e.2 = true
    · have fresh : e.1 ∉ t.choices.keys := fun mem =>
        (List.nodup_append.1 distinct).2.2 _ mem _ List.mem_cons_self rfl
      have keys : (t.choose e.1 e.2).choices.keys ++ entries.map Prod.fst =
          t.choices.keys ++ (e :: entries).map Prod.fst := by
        rw [Selection.choose, OrderedMap.keys_insert, if_neg fresh, List.append_assoc]
        rfl
      obtain ⟨t', rest, choices⟩ := ih (t := t.choose e.1 e.2) others (by rwa [keys])
      refine ⟨t', ?_, ?_⟩
      · rw [if_pos used, follow_node known (by rwa [owner]), owner]
        exact rest
      · rw [choices, Selection.choose, OrderedMap.toList_insert_of_notMem e.2 fresh, List.append_assoc,
          List.filter_cons, if_pos used]
        rfl
    · have shorter : (t.choices.keys ++ entries.map Prod.fst).Nodup :=
        distinct.sublist ((List.sublist_cons_self _ _).append_left _)
      obtain ⟨t', rest, choices⟩ := ih others shorter
      refine ⟨t', ?_, ?_⟩
      · rw [if_neg used]
        exact rest
      · rw [choices, List.filter_cons, if_neg used]

end Decision

/-- The decisions to start from are read back from their text and make up a selection again. It keeps the choices
below the roots, in their order, and no others; it passes the check, all metrics come out as before, and the
decisions that it gives are those about nodes. -/
theorem Selection.warmStart_restores {s : Selection α} (ok : s.check g = .ok ()) :
    ∃ (decisions read : List Decision) (t : Selection α), Decision.warmStart s g = .ok decisions ∧
      Decision.readAll (Decision.render decisions) = .ok read ∧ Decision.toSelection read g = .ok t ∧
      t.choices.toList.Sublist s.choices.toList ∧
      (∀ e, e ∈ t.choices.toList ↔ e ∈ s.choices.toList ∧ s.Below g g.roots e.1) ∧
      t.check g = .ok () ∧ t.treeCost g g.roots = s.treeCost g g.roots ∧
      t.dagCost g g.roots = s.dagCost g g.roots ∧ t.depth g g.roots = s.depth g g.roots ∧
      t.activeNodes g g.roots = s.activeNodes g g.roots ∧
      Decision.warmStart t g = .ok (decisions.filter Decision.isNode) := by
  have valid := check_eq_ok_iff_valid.1 ok
  obtain ⟨active, found⟩ := valid.exists_activeNodes
  have stored : ∀ e ∈ s.choices.toList, e.2.owner = e.1 ∧ (g.node? e.2).isSome := by
    intro e mem
    obtain ⟨node, held, owner⟩ := valid.proper _ _ (OrderedMap.get?_eq_some_iff.2 mem)
    exact ⟨(EGraph.owner_of_node? held).trans owner, by rw [held]; rfl⟩
  obtain ⟨t, made, choices⟩ : ∃ t,
      Decision.toSelection (s.choices.toList.map (Decision.opening active)) g = .ok t ∧
        t.choices.toList = s.choices.toList.filter fun e => active.contains e.2 :=
    Decision.foldlM_follow stored s.choices.nodup
  have kept : ∀ e, e ∈ t.choices.toList ↔ e ∈ s.choices.toList ∧ s.Below g g.roots e.1 := by
    intro e
    rw [choices, List.mem_filter, List.contains_iff_mem]
    exact and_congr_right fun mem => valid.proper.mem_activeNodes found (OrderedMap.get?_eq_some_iff.2 mem)
  have same : ∀ c, s.Below g g.roots c → s.choice? c = t.choice? c := by
    intro c below
    obtain ⟨id, choice⟩ := Option.isSome_iff_exists.1 (valid.complete c below)
    have mem := OrderedMap.get?_eq_some_iff.1 choice
    rw [choice]
    exact (OrderedMap.get?_eq_some_iff.2 ((kept (c, id)).2 ⟨mem, below⟩)).symm
  have opened : Decision.warmStart s g = .ok (s.choices.toList.map (Decision.opening active)) :=
    Decision.warmStart_eq_ok.2 ⟨active, found, rfl⟩
  refine ⟨_, _, t, opened, Decision.readAll_render _, made, choices ▸ List.filter_sublist, kept, ?_,
    (treeCost_congr same).symm, (dagCost_congr same).symm, (depth_congr same).symm,
    (activeNodes_congr same).symm, ?_⟩
  · exact check_eq_ok_iff_valid.2 (valid.of_part (fun e mem => ((kept e).1 mem).1) same)
  · refine Decision.warmStart_eq_ok.2 ⟨active, (activeNodes_congr same).symm.trans found, ?_⟩
    rw [choices, List.filter_map]
    congr 1
    exact List.filter_congr fun e _ => Decision.isNode_opening active e

section Spare
set_option maxRecDepth 100000

/-- A graph in which class 1 is a leaf or stands above class 0, and class 2, the root, stands above class 1. -/
def spareGraph : EGraph Float :=
  (Draft.ofNodes [((0 : UInt32), [], (1.0 : Float)), (1, [], 1), (1, [0], 7), (2, [1], 1)]
    [2]).toGraph.toOption.get (by decide +kernel)

/-- Class 0 has a choice and is not below the root. -/
def spareSelection : Selection Float :=
  [0, 1, 2].foldl (fun s c => s.choose ⟨c⟩ ⟨⟨c⟩, 0⟩) ∅

theorem spareSelection_restores : spareSelection.check spareGraph = .ok () ∧
    ∃ (decisions read : List Decision) (t : Selection Float),
      Decision.warmStart spareSelection spareGraph = .ok decisions ∧
      Decision.readAll (Decision.render decisions) = .ok read ∧
      Decision.toSelection read spareGraph = .ok t ∧ t.check spareGraph = .ok () ∧
      t.dagCost spareGraph spareGraph.roots = spareSelection.dagCost spareGraph spareGraph.roots ∧
      (⟨2⟩, ⟨⟨2⟩, 0⟩) ∈ t.choices.toList ∧ ∀ id, (⟨0⟩, id) ∉ t.choices.toList := by
  have ok : spareSelection.check spareGraph = .ok () := by decide +kernel
  have walk : (spareSelection.survey spareGraph spareGraph.roots).result.toOption.any
      (fun visits => decide (visits.map Visit.eclass = [⟨2⟩, ⟨1⟩])) := by decide +kernel
  obtain ⟨visits, surveyed, classes⟩ := (Option.any_eq_true _ _).1 walk
  have visited := (Selection.drawn_of_survey (eq_ok_of_toOption surveyed)).2
  rw [of_decide_eq_true classes] at visited
  obtain ⟨decisions, read, t, start, parsed, made, _, kept, passes, _, cost, _⟩ :=
    Selection.warmStart_restores ok
  refine ⟨ok, decisions, read, t, start, parsed, made, passes, cost, ?_, ?_⟩
  · exact (kept _).2 ⟨by decide, (visited ⟨2⟩).1 (by decide)⟩
  · intro id mem
    exact absurd ((visited ⟨0⟩).2 ((kept _).1 mem).2) (by decide)

end Spare

end Extraction
