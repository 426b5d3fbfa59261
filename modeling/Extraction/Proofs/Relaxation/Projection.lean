import Extraction.Proofs.Graph.Part
import Extraction.Proofs.Relaxation.Attained
import Extraction.Proofs.Relaxation.Bill
import Extraction.Proofs.Relaxation.Ending

/-! Runs on a graph and on a part of it. Where nodes are taken up one at a time, what happens to the classes of
the part when the whole graph is gone through is a run on the part: a step that takes up a node of the part is
one there, a step that takes up another node is none, and the passes begin together. -/
namespace Extraction
open Std

variable {α β : Type} [Cost α]

/-- Queueing some of the elements on a worklist that holds such elements only. -/
theorem Worklist.items_insertMany_filter {κ : Type} [Ord κ] [TransOrd κ] [LawfulEqOrd κ]
    {w w' : Worklist κ} (sound : w.Sound) (sound' : w'.Sound) {p : κ → Bool}
    (same : w'.items = w.items.filter p) (xs : List κ) :
    (w'.insertMany (xs.filter p)).items = (w.insertMany xs).items.filter p := by
  induction xs generalizing w w' with
  | nil => exact same
  | cons x xs ih =>
    have queued : x ∈ w'.items ↔ x ∈ w.items ∧ p x = true := by rw [same, List.mem_filter]
    have later : (w.insertMany (x :: xs)) = (w.insert x).insertMany xs := rfl
    rw [later, List.filter_cons]
    by_cases old : x ∈ w.items
    · rw [insert_of_mem sound old]
      split
      · rename_i chosen
        have again : w'.insert x = w' := insert_of_mem sound' (queued.2 ⟨old, chosen⟩)
        show ((w'.insert x).insertMany (xs.filter p)).items = _
        rw [again]
        exact ih sound sound' same
      · exact ih sound sound' same
    · have added := items_insert_of_notMem sound old
      split
      · rename_i chosen
        refine ih (sound.insert x) (sound'.insert x) ?_
        rw [items_insert_of_notMem sound' fun mem => old (queued.1 mem).1, added, List.filter_append,
          same, List.filter_cons_of_pos chosen, List.filter_nil]
      · rename_i out
        refine ih (sound.insert x) sound' ?_
        rw [added, List.filter_append, List.filter_cons_of_neg out, List.filter_nil, List.append_nil,
          same]

namespace Plan

/-- The evaluation of a node reads no more than the entries of its children and of its class. -/
def Local (plan : Plan α β) : Prop :=
  ∀ {table table' : Table α β} {id : NodeId} {node : Node α},
    (∀ c ∈ node.children, TreeMap.get? table' c = TreeMap.get? table c) →
    TreeMap.get? table' node.eclass = TreeMap.get? table node.eclass →
      plan.evaluate table' id node = plan.evaluate table id node

theorem local_byBills {prune : Bool} {passes : Nat} {pace : Pace} :
    (byBills (α := α) prune passes pace).Local := by
  intro table table' id node below own
  have values : node.distinctChildren.mapM table'.get? = node.distinctChildren.mapM table.get? :=
    mapM_congr fun c mem => below c (mem_distinctClasses.1 mem)
  have pruned : hopeless table' node = hopeless table node := by
    funext children
    unfold hopeless
    rw [Table.total?, Table.total?, own]
  simp only [byBills, billEvaluation, values, pruned]

omit [Cost α] in
theorem local_byMeasure {measure : Node α → List α → α} : (byMeasure measure).Local := by
  intro table table' id node below _
  have values : node.children.mapM table'.total? = node.children.mapM table.total? :=
    mapM_congr fun c child => by rw [Table.total?, Table.total?, below c child]
  simp only [byMeasure, measureEvaluation, values]

section Steps
variable {plan : Plan α β} {g : EGraph α} {n m : Nat} {r r' r'' : Run α β}

theorem Steps.concat (steps : plan.Steps g n r r') (goes : plan.advance g false r' = some r'') :
    plan.Steps g (n + 1) r r'' := by
  induction steps with
  | zero => exact .succ goes (.zero _)
  | succ first _ ih => exact .succ first (ih goes)

/-- Sequences of steps that cannot go on end alike. -/
theorem Steps.eq_of_stops (steps : plan.Steps g n r r') (stops : plan.advance g false r' = none)
    (other : plan.Steps g m r r'') (stops' : plan.advance g false r'' = none) : r'' = r' := by
  induction steps generalizing m with
  | zero =>
    cases other with
    | zero => rfl
    | succ goes => cases goes.symm.trans stops
  | succ goes _ ih =>
    cases other with
    | zero => cases goes.symm.trans stops'
    | succ goes' others =>
      obtain rfl := Option.some.inj (goes.symm.trans goes')
      exact ih stops others

theorem advance_of_idle (punctual : r.overdue = false) (idle : r.queue.items = [])
    (more : r.pass < plan.passes) : plan.advance g false r = some (r.nextPass g) := by
  have empty : r.queue.isEmpty = true := List.isEmpty_iff.2 idle
  rw [advance_eq, if_neg (by simp [punctual]), if_pos empty, if_pos more]

theorem advance_of_busy (punctual : r.overdue = false) (busy : r.queue.items ≠ []) :
    ∃ polls, plan.advance g false r = some (plan.round g polls r) := by
  have some : ¬ r.queue.isEmpty = true := fun empty => busy (List.isEmpty_iff.1 empty)
  rw [advance_eq, if_neg (by simp [punctual]), if_neg some, Bool.and_false, if_neg Bool.false_ne_true]
  exact ⟨_, rfl⟩

end Steps

/-- What a run has done to the classes in `D` is what the other one has done at all. -/
structure Projects (D : ClassId → Bool) (r r' : Run α β) : Prop where
  table : ∀ c, TreeMap.get? r'.table c = if D c then TreeMap.get? r.table c else none
  queue : r'.queue.items = r.queue.items.filter fun id => D id.owner
  candidates : ∀ id, r'.candidates.get? id = if D id.owner then r.candidates.get? id else none
  installs : r'.installs = r.installs.filter fun i => D i.eclass
  pass : r'.pass = r.pass

section Projection
variable {plan : Plan α β} {g h : EGraph α} {D : ClassId → Bool} {r r' : Run α β}

/-- Inside, nodes are evaluated alike. -/
theorem Projects.evaluateIn_eq (part : h.IsPart D g) (local_ : plan.Local)
    (projects : Projects D r r') {id : NodeId} (inside : D id.owner = true) :
    plan.evaluateIn h r'.table id = plan.evaluateIn g r.table id := by
  have kept : ∀ {c}, D c = true → TreeMap.get? r'.table c = TreeMap.get? r.table c := by
    intro c inside
    rw [projects.table, if_pos inside]
  rw [evaluateIn, evaluateIn, part.node?_eq inside]
  cases stored : g.node? id with
  | none => rfl
  | some node =>
    have owner : D node.eclass = true := by rwa [← EGraph.owner_of_node? stored]
    exact local_ (fun c child => kept (part.closed stored owner child)) (kept owner)

/-- A pass begins with those nodes of the part with which it begins on the whole. -/
theorem Projects.nextPass (part : h.IsPart D g) (projects : Projects D r r') (sound : r.queue.Sound)
    (sound' : r'.queue.Sound) : Projects D (r.nextPass g) (r'.nextPass h) where
  table := projects.table
  queue := by
    have seeds : h.seeds r'.pass = (g.seeds r.pass).filter fun id => D id.owner := by
      rw [projects.pass]
      exact part.keys_filter _
    show (r'.queue.insertMany (h.seeds r'.pass)).items = _
    rw [seeds]
    exact Worklist.items_insertMany_filter sound sound' projects.queue _
  candidates := projects.candidates
  installs := projects.installs
  pass := congrArg (· + 1) projects.pass

section Round
variable {id : NodeId} {rest : List NodeId} (one : plan.pace.size = 1)
  (queued : r.queue.items = id :: rest)
include one queued

omit [Cost α] in
theorem batch_of_head : plan.batch r = [id] := by
  rw [batch, one, queued]
  rfl

theorem owner_of_wins {c : ClassId} {entry : Entry α β}
    (won : (plan.wins g r).get? c = some entry) : id.owner = c := by
  obtain ⟨id', taken, owner, _⟩ := exists_of_winner won
  rw [batch_of_head one queued, List.mem_singleton] at taken
  rwa [← taken]

omit [Cost α] in
theorem items_of_head : (r.queue.popBatch plan.pace.size).2.items = rest := by
  rw [Worklist.items_popBatch, one, queued]
  rfl

/-- Outside, a step changes nothing for the part. -/
theorem Projects.outside (part : h.IsPart D g) (projects : Projects D r r')
    (sound : r.queue.Sound) (sound' : r'.queue.Sound) (out : D id.owner = false) (polls : Nat) :
    Projects D (plan.round g polls r) r' where
  table := by
    intro c
    rw [projects.table, round_table, Table.get?_update]
    split
    · rename_i inside
      cases won : (plan.wins g r).get? c with
      | none => rfl
      | some entry =>
        rw [← owner_of_wins one queued won, out] at inside
        cases inside
    · rfl
  queue := by
    have unconcerned : ((plan.wins g r).keys.flatMap g.parents).filter (fun id => D id.owner) = [] := by
      rw [List.filter_flatMap]
      refine List.flatMap_eq_nil_iff.2 fun c mem => ?_
      obtain ⟨⟨_, entry⟩, won, rfl⟩ := List.mem_map.1 mem
      rw [← part.parents, ← owner_of_wins one queued (OrderedMap.get?_eq_some_iff.2 won),
        part.parents_outside out]
    have left : r'.queue.items =
        (r.queue.popBatch plan.pace.size).2.items.filter fun id => D id.owner := by
      rw [projects.queue, queued, items_of_head one queued, List.filter_cons, if_neg (by simp [out])]
    have after := Worklist.items_insertMany_filter (sound.popBatch _) sound' left
      ((plan.wins g r).keys.flatMap g.parents)
    rw [unconcerned] at after
    exact after
  candidates := by
    intro other
    have nodup : (plan.batch r).Nodup := sound.nodup.sublist (List.take_sublist _ _)
    rw [projects.candidates]
    split
    · rename_i inside
      refine ((get?_recorded plan g r.table r.candidates nodup other).trans (if_neg ?_)).symm
      rw [batch_of_head one queued, List.mem_singleton]
      rintro rfl
      rw [out] at inside
      cases inside
    · rfl
  installs := by
    rw [projects.installs, round_installs, List.filter_append]
    refine (List.append_left_eq_self.2 ?_).symm
    refine List.filter_eq_nil_iff.2 fun install mem => ?_
    obtain ⟨⟨c, entry⟩, won, rfl⟩ := List.mem_map.1 (List.mem_reverse.1 mem)
    rw [← owner_of_wins one queued (OrderedMap.get?_eq_some_iff.2 won), out]
    exact Bool.false_ne_true
  pass := projects.pass

omit one in
omit [Cost α] in
theorem Projects.queued_inside (projects : Projects D r r') (inside : D id.owner = true) :
    r'.queue.items = id :: rest.filter fun id => D id.owner := by
  rw [projects.queue, queued, List.filter_cons, if_pos inside]

/-- Inside, the same realization wins. -/
theorem Projects.wins_eq (part : h.IsPart D g) (local_ : plan.Local) (projects : Projects D r r')
    (inside : D id.owner = true) : plan.wins h r' = plan.wins g r := by
  have alone (g : EGraph α) (table : Table α β) :
      plan.winners g table [id] = weigh table ∅ (id, plan.evaluateIn g table id) := rfl
  have held : r'.table.total? id.owner = r.table.total? id.owner := by
    rw [Table.total?, Table.total?, projects.table, if_pos inside]
  have bare : (∅ : OrderedMap ClassId (Entry α β)).get? id.owner = none := rfl
  rw [wins, wins, batch_of_head one queued, batch_of_head one (projects.queued_inside queued inside), alone,
    alone, projects.evaluateIn_eq part local_ inside]
  cases plan.evaluateIn g r.table id with
  | blocked | rejected => rfl
  | candidate entry => simp only [weigh, contend, held, bare]

/-- Inside, a step is one of the part. -/
theorem Projects.inside (part : h.IsPart D g) (local_ : plan.Local) (projects : Projects D r r')
    (sound : r.queue.Sound) (sound' : r'.queue.Sound) (inside : D id.owner = true)
    (polls polls' : Nat) : Projects D (plan.round g polls r) (plan.round h polls' r') where
  table := by
    intro c
    rw [round_table, round_table, Table.get?_update, Table.get?_update,
      projects.wins_eq one queued part local_ inside, projects.table]
    split
    · rfl
    · rename_i out
      have lost : (plan.wins g r).get? c = none := by
        refine Option.eq_none_iff_forall_ne_some.2 fun entry won => out ?_
        rwa [← owner_of_wins one queued won]
      rw [lost]
      rfl
  queue := by
    have left : (r'.queue.popBatch plan.pace.size).2.items =
        (r.queue.popBatch plan.pace.size).2.items.filter fun id => D id.owner := by
      rw [items_of_head one queued, items_of_head one (projects.queued_inside queued inside)]
    have concerned : (plan.wins g r).keys.flatMap h.parents =
        ((plan.wins g r).keys.flatMap g.parents).filter fun id => D id.owner := by
      rw [List.filter_flatMap]
      exact List.flatMap_congr fun c _ => part.parents c
    show ((r'.queue.popBatch plan.pace.size).2.insertMany ((plan.wins h r').keys.flatMap h.parents)).items
      = _
    rw [projects.wins_eq one queued part local_ inside, concerned]
    exact Worklist.items_insertMany_filter (sound.popBatch _) (sound'.popBatch _) left _
  candidates := by
    intro other
    have nodup : (plan.batch r).Nodup := sound.nodup.sublist (List.take_sublist _ _)
    have nodup' : (plan.batch r').Nodup := sound'.nodup.sublist (List.take_sublist _ _)
    refine (get?_recorded plan h r'.table r'.candidates nodup' other).trans ?_
    have whole : (plan.round g polls r).candidates.get? other = _ :=
      get?_recorded plan g r.table r.candidates nodup other
    rw [whole, batch_of_head one queued, batch_of_head one (projects.queued_inside queued inside),
      getD_eq_get?, getD_eq_get?, projects.candidates]
    by_cases taken : other ∈ [id]
    · obtain rfl := List.mem_singleton.1 taken
      simp only [taken, inside, if_true, projects.evaluateIn_eq part local_ inside]
    · simp only [taken, if_false]
  installs := by
    have same : (plan.wins g r).toList.map (fun e =>
          (⟨e.1, r'.table.total? e.1, e.2.total⟩ : Install α)) =
        (plan.wins g r).toList.map fun e => ⟨e.1, r.table.total? e.1, e.2.total⟩ := by
      refine List.map_congr_left fun e won => ?_
      rw [← owner_of_wins one queued (OrderedMap.get?_eq_some_iff.2 won), Table.total?, Table.total?,
        projects.table, if_pos inside]
    rw [round_installs, round_installs, projects.wins_eq one queued part local_ inside, same,
      projects.installs, List.filter_append]
    congr 1
    refine (List.filter_eq_self.2 fun install mem => ?_).symm
    obtain ⟨⟨c, entry⟩, won, rfl⟩ := List.mem_map.1 (List.mem_reverse.1 mem)
    rwa [← owner_of_wins one queued (OrderedMap.get?_eq_some_iff.2 won)]
  pass := projects.pass

end Round

/-- Every run on the whole graph has a run on the part beside it. -/
theorem Reached.exists_projection (part : h.IsPart D g) (one : plan.pace.size = 1)
    (local_ : plan.Local) (reached : plan.Reached g r) :
    ∃ n r', plan.Steps h n .start r' ∧ Projects D r r' := by
  induction reached with
  | start => exact ⟨0, .start, .zero _, fun c => (ite_self _).symm, rfl, fun id => (ite_self _).symm, rfl, rfl⟩
  | @step r q before step ih =>
    obtain ⟨n, r', steps, projects⟩ := ih
    obtain ⟨reached', punctual⟩ := steps.reached .start rfl
    cases step with
    | pass idle more =>
      have idle' : r'.queue.items = [] := by rw [projects.queue, idle]; rfl
      have more' : r'.pass < plan.passes := by rwa [projects.pass]
      exact ⟨n + 1, _, steps.concat (advance_of_idle punctual idle' more'),
        projects.nextPass part before.sound reached'.sound⟩
    | round polls busy =>
      obtain ⟨id, rest, queued⟩ := List.exists_cons_of_ne_nil busy
      cases inside : D id.owner with
      | false =>
        exact ⟨n, r', steps,
          projects.outside one queued part before.sound reached'.sound inside polls⟩
      | true =>
        have busy' : r'.queue.items ≠ [] := by
          rw [projects.queue, queued, List.filter_cons, if_pos inside]
          exact List.cons_ne_nil _ _
        obtain ⟨polls', goes⟩ : ∃ polls, plan.advance h false r' = some (plan.round h polls r') :=
          advance_of_busy punctual busy'
        exact ⟨n + 1, _, steps.concat goes,
          projects.inside one queued part local_ before.sound reached'.sound inside polls polls'⟩

/-- The whole run on the part is what the whole run on the graph does to it. -/
theorem projects_wholeRun (part : h.IsPart D g) (one : plan.pace.size = 1) (local_ : plan.Local)
    (ended : (plan.wholeRun g).Over plan.passes) (ended' : (plan.wholeRun h).Over plan.passes) :
    Projects D (plan.wholeRun g) (plan.wholeRun h) := by
  obtain ⟨n, r', steps, projects⟩ := (plan.reached_wholeRun g).exists_projection part one local_
  have finished : r'.Over plan.passes := by
    refine ⟨?_, ?_⟩
    · rw [projects.queue, ended.idle]
      rfl
    · rw [projects.pass]
      exact ended.done
  obtain ⟨m, _, whole⟩ := plan.exists_steps h (plan.stepLimit h) .start
  have same : plan.wholeRun h = r' :=
    steps.eq_of_stops (stops_of_over plan h finished) whole (stops_of_over plan h ended')
  rwa [same]

end Projection

end Plan

end Extraction
