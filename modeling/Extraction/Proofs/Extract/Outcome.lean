import Extraction.Proofs.Relaxation.Phases
import Extraction.Proofs.Relaxation.Timed
import Extraction.Proofs.Relaxation.Totals
import Extraction.Proofs.Selection.Check

/-! Extraction without a time limit: the run to its end and the selection of what its table holds, in the
order of the classes. -/
namespace Extraction
open Std

variable {α β : Type} [Cost α]

namespace Run

omit [Cost α] in
/-- Choosing for new classes, each once, adds the choices at the end. -/
theorem foldl_choose {choice? : ClassId → Option NodeId} {classes : List ClassId}
    (nodup : classes.Nodup) (s : Selection α) (fresh : ∀ c ∈ classes, c ∉ s.choices.keys) :
    let chosen := classes.foldl (fun s c =>
      match choice? c with
      | some id => s.choose c id
      | none => s) s
    chosen.choices.toList =
        s.choices.toList ++ classes.filterMap (fun c => (choice? c).map fun id => (c, id)) ∧
      chosen.candidates = s.candidates := by
  induction classes generalizing s with
  | nil => simp
  | cons c classes ih =>
    obtain ⟨new, others⟩ := List.forall_mem_cons.1 fresh
    obtain ⟨apart, nodup⟩ := List.nodup_cons.1 nodup
    rw [List.foldl_cons]
    cases choice : choice? c with
    | none =>
      simp only [List.filterMap_cons, choice, Option.map_none]
      exact ih nodup s others
    | some id =>
      have still : ∀ d ∈ classes, d ∉ (s.choose c id).choices.keys := by
        intro d mem
        rw [Selection.choose, OrderedMap.keys_insert, if_neg new, List.mem_append, not_or]
        constructor
        · exact others d mem
        · intro same
          rw [List.mem_singleton.1 same] at mem
          exact apart mem
      obtain ⟨choices, candidates⟩ := ih nodup (s.choose c id) still
      constructor
      · rw [choices, Selection.choose, OrderedMap.toList_insert_of_notMem id new, List.append_assoc,
          List.filterMap_cons, choice]
        rfl
      · exact candidates

/-- The choices of a run: those of its table, in the order of the classes. -/
theorem toList_selection (g : EGraph α) (r : Run α β) :
    (r.selection g).choices.toList =
      g.classes.filterMap fun c => (r.table.choice? c).map fun id => (c, id) :=
  (foldl_choose g.nodup_classes ⟨∅, r.candidates⟩ fun _ _ => List.not_mem_nil).1

theorem candidates_selection (g : EGraph α) (r : Run α β) :
    (r.selection g).candidates = r.candidates :=
  (foldl_choose g.nodup_classes ⟨∅, r.candidates⟩ fun _ _ => List.not_mem_nil).2

theorem choice?_selection {g : EGraph α} {r : Run α β} {c : ClassId} {id : NodeId} :
    (r.selection g).choice? c = some id ↔ c ∈ g.classes ∧ r.table.choice? c = some id := by
  rw [Selection.choice?, OrderedMap.get?_eq_some_iff, toList_selection, List.mem_filterMap]
  constructor
  · rintro ⟨d, known, held⟩
    obtain ⟨id', choice, same⟩ := Option.map_eq_some_iff.1 held
    obtain ⟨rfl, rfl⟩ := Prod.mk.inj same
    exact ⟨known, choice⟩
  · rintro ⟨known, choice⟩
    exact ⟨c, known, by rw [choice]; rfl⟩

theorem keys_selection (g : EGraph α) (r : Run α β) :
    (r.selection g).choices.keys = g.classes.filter fun c => (TreeMap.get? r.table c).isSome := by
  rw [OrderedMap.keys, toList_selection]
  induction g.classes with
  | nil => rfl
  | cons c classes ih =>
    rw [List.filterMap_cons, List.filter_cons, Table.choice?]
    cases held : TreeMap.get? r.table c <;> simp [ih]

omit [Cost α] in
theorem uncovered_eq_nil {roots : List ClassId} {r : Run α β} :
    r.uncovered roots = [] ↔ ∀ c ∈ roots, r.table.Covers c := by
  rw [List.eq_nil_iff_forall_not_mem]
  refine forall_congr' fun c => ?_
  rw [uncovered, List.mem_eraseDups, List.mem_filter, not_and, Bool.not_eq_true',
    Bool.not_eq_false, TreeMap.contains_eq_isSome_getElem?]
  rfl

/-- Where a run is judged to end well, what comes of it is its selection, and its table covers the roots. -/
theorem conclude_eq_ok {g : EGraph α} {roots : List ClassId} {passes limit : Nat} {late : Bool}
    {r : Run α β} {s : Selection α} (ok : r.conclude g roots passes limit late = .ok s) :
    s = r.selection g ∧ ∀ c ∈ roots, r.table.Covers c := by
  rw [conclude] at ok
  split at ok
  · cases ok
  split at ok
  · cases ok
  split at ok
  · cases ok
  · rename_i covered
    rw [Bool.not_eq_true', Bool.not_eq_false, List.isEmpty_iff, uncovered_eq_nil] at covered
    exact ⟨(Except.ok.inj ok).symm, covered⟩

end Run

namespace Plan

/-- Without a time limit, the whole run is what is judged. -/
theorem extract_eq_wholeRun (plan : Plan α β) (limit : Nat) (g : EGraph α) (roots : List ClassId) :
    Id.run (plan.extract limit g roots fun _ => pure false) =
      ⟨(plan.wholeRun g).conclude g roots plan.passes limit false,
        (plan.wholeRun g).installs.reverse⟩ :=
  plan.extract_eq_timedRun limit g roots fun _ => false

theorem extract_eq_conclude (plan : Plan α β) (limit : Nat) (g : EGraph α) (roots : List ClassId) :
    (Id.run (plan.extract limit g roots fun _ => pure false)).selection =
      (plan.wholeRun g).conclude g roots plan.passes limit false := by
  rw [extract_eq_wholeRun]

theorem installs_of_extract (plan : Plan α β) (limit : Nat) (g : EGraph α) (roots : List ClassId) :
    (Id.run (plan.extract limit g roots fun _ => pure false)).installs =
      (plan.wholeRun g).installs.reverse := by
  rw [extract_eq_wholeRun]

/-- What comes of a run that is over: the selection, unless a root has no realization. -/
theorem extract_eq (plan : Plan α β) (limit : Nat) (g : EGraph α) (roots : List ClassId)
    (ended : (plan.wholeRun g).Over plan.passes) :
    (Id.run (plan.extract limit g roots fun _ => pure false)).selection =
      if ((plan.wholeRun g).uncovered roots).isEmpty then .ok ((plan.wholeRun g).selection g)
      else .error (.uncoverableRoots ((plan.wholeRun g).uncovered roots)) := by
  have punctual : (plan.wholeRun g).overdue = false := (reached_unhurried _ .start rfl).2
  rw [extract_eq_conclude, Run.conclude, punctual, Bool.or_false, if_neg Bool.false_ne_true, if_neg]
  · cases ((plan.wholeRun g).uncovered roots).isEmpty <;> rfl
  · have idle : (plan.wholeRun g).queue.isEmpty = true := List.isEmpty_iff.2 ended.idle
    have done := ended.done
    simp [idle, Nat.not_lt.2 done]

/-- A selection that comes of an extraction is that of the whole run, which covers the roots. -/
theorem selection_of_extract {plan : Plan α β} {limit : Nat} {g : EGraph α} {roots : List ClassId}
    {s : Selection α}
    (ok : (Id.run (plan.extract limit g roots fun _ => pure false)).selection = .ok s) :
    s = (plan.wholeRun g).selection g ∧ ∀ c ∈ roots, (plan.wholeRun g).table.Covers c := by
  rw [extract_eq_conclude] at ok
  exact Run.conclude_eq_ok ok

/-- A founded table chooses for its classes. -/
theorem Founded.choice?_eq {g : EGraph α} {r : Run α β} (founded : Founded g r.table) {c : ClassId}
    {entry : Entry α β} (held : TreeMap.get? r.table c = some entry) :
    (r.selection g).choice? c = some entry.choice := by
  obtain ⟨node, stored, owner, _⟩ := founded c entry held
  refine Run.choice?_selection.2 ⟨EGraph.mem_classes.2 ⟨_, node, stored, owner⟩, ?_⟩
  rw [Table.choice?, held]
  rfl

/-- The selection of a founded table is founded. -/
theorem Founded.selection {g : EGraph α} {r : Run α β} (founded : Founded g r.table) :
    (r.selection g).Founded g := by
  intro c id choice
  obtain ⟨_, chosen⟩ := Run.choice?_selection.1 choice
  obtain ⟨entry, held, rfl⟩ := Option.map_eq_some_iff.1 chosen
  obtain ⟨node, stored, owner, below⟩ := founded _ entry held
  refine ⟨node, stored, owner, ?_⟩
  intro d child
  obtain ⟨entry', held'⟩ := Table.covers_iff.1 (below d child)
  rw [founded.choice?_eq held']
  rfl

/-- What a class uses in the selection of a founded table. -/
theorem Founded.uses {g : EGraph α} {r : Run α β} {c d : ClassId} (founded : Founded g r.table)
    (use : (r.selection g).Uses g c d) :
    ∃ entry node below, TreeMap.get? r.table c = some entry ∧ g.node? entry.choice = some node ∧
      d ∈ node.children ∧ TreeMap.get? r.table d = some below := by
  obtain ⟨id, node, choice, stored, child⟩ := use
  obtain ⟨_, chosen⟩ := Run.choice?_selection.1 choice
  obtain ⟨entry, held, rfl⟩ := Option.map_eq_some_iff.1 chosen
  obtain ⟨node', stored', _, covered⟩ := founded _ entry held
  obtain rfl := Option.some.inj (stored.symm.trans stored')
  obtain ⟨below, held'⟩ := Table.covers_iff.1 (covered d child)
  exact ⟨entry, node, below, held, stored, child, held'⟩

theorem choice?_of_covers {g : EGraph α} {r : Run α β} {c : ClassId} (founded : Founded g r.table)
    (covered : r.table.Covers c) : ((r.selection g).choice? c).isSome := by
  obtain ⟨entry, held⟩ := Table.covers_iff.1 covered
  rw [founded.choice?_eq held]
  rfl

end Plan

/-- The draft of nodes of one operator, each given by its class, its children and its cost. -/
def Draft.ofNodes (nodes : List (UInt32 × List UInt32 × α)) (roots : List UInt32) : Draft α :=
  let d : Draft α := nodes.foldl (fun d n => (d.push ⟨n.1⟩ "f" (n.2.1.map ClassId.mk) n.2.2).2) ∅
  { d with roots := roots.map ClassId.mk }

/-- An extraction without a time limit. -/
def Settings.untimed (settings : Settings) (g : EGraph α) (roots : List ClassId) :
    Except ExtractError (Selection α) :=
  (Id.run (settings.run g roots fun _ => pure false)).selection

/-- A selection that comes of an extraction is founded and chooses for the roots, whatever looks at the time
have told. -/
theorem Plan.founded_of_extract {plan : Plan α β} (careful : plan.Careful) {limit : Nat}
    {g : EGraph α} {roots : List ClassId} {poll : Nat → Bool} {s : Selection α}
    (ok : (Id.run (plan.extract limit g roots fun n => pure (poll n))).selection = .ok s) :
    s.Founded g ∧ ∀ c ∈ roots, (s.choice? c).isSome := by
  rw [extract_eq_timedRun] at ok
  obtain ⟨rfl, covered⟩ := Run.conclude_eq_ok ok
  obtain ⟨_, reached⟩ := plan.exists_reached_timedRun g poll
  have founded := reached.founded careful
  exact ⟨Founded.selection (r := plan.timedRun g poll) founded,
    fun c root => choice?_of_covers founded (covered c root)⟩

theorem Settings.founded_of_run {settings : Settings} {g : EGraph α} {roots : List ClassId}
    {poll : Nat → Bool} {s : Selection α}
    (ok : (Id.run (settings.run g roots fun n => pure (poll n))).selection = .ok s) :
    s.Founded g ∧ ∀ c ∈ roots, (s.choice? c).isSome := by
  unfold run at ok
  cases extractor : settings.extractor <;> rw [extractor] at ok
  · exact Plan.founded_of_extract Plan.careful_byBills ok
  · exact Plan.founded_of_extract Plan.careful_byBills ok
  · exact Plan.founded_of_extract Plan.careful_byMeasure ok
  · exact Plan.founded_of_extract Plan.careful_byMeasure ok

theorem Settings.founded_of_untimed {settings : Settings} {g : EGraph α} {roots : List ClassId}
    {s : Selection α} (ok : settings.untimed g roots = .ok s) :
    s.Founded g ∧ ∀ c ∈ roots, (s.choice? c).isSome := founded_of_run ok

end Extraction
