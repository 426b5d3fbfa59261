import Extraction.Proofs.Selection.Walk

/-! The survey. It ends well exactly if every class below the roots is in the graph and has a stored choice,
whether or not the choices go round; then it has taken up each class below the roots once. -/
namespace Extraction
open Relation

variable {α : Type} [Cost α]

namespace Selection

/-- What can stop a survey of the classes that `P` holds of. -/
inductive Gap (s : Selection α) (g : EGraph α) (P : ClassId → Prop) : CheckError → Prop
  | unknown {c : ClassId} (below : P c) (absent : c ∉ g.classes) : Gap s g P (.unknownClass c)
  | choice {c : ClassId} {e : CheckError} (below : P c) (missing : s.chosen g c = .error e) :
      Gap s g P e

/-- Visits of distinct classes, each with the node chosen for it. -/
structure Drawn (s : Selection α) (g : EGraph α) (visits : List (Visit α)) : Prop where
  chosen : ∀ v ∈ visits, s.chosen g v.eclass = .ok v
  nodup : (visits.map Visit.eclass).Nodup

variable {s : Selection α} {g : EGraph α}

theorem Drawn.nil : Drawn s g [] := ⟨List.forall_mem_nil _, List.nodup_nil⟩

theorem Drawn.cons {v : Visit α} {visits : List (Visit α)} (h : Drawn s g visits)
    (chosen : s.chosen g v.eclass = .ok v) (fresh : v.eclass ∉ visits.map Visit.eclass) :
    Drawn s g (v :: visits) :=
  ⟨List.forall_mem_cons.2 ⟨chosen, h.chosen⟩, List.nodup_cons.2 ⟨fresh, h.nodup⟩⟩

/-- A class is visited by the node chosen for it. -/
theorem Drawn.mem_of_chosen {v : Visit α} {visits : List (Visit α)} (h : Drawn s g visits)
    (visited : v.eclass ∈ visits.map Visit.eclass) (chosen : s.chosen g v.eclass = .ok v) :
    v ∈ visits := by
  obtain ⟨w, mem, same⟩ := List.mem_map.1 visited
  have chosen' := h.chosen w mem
  rw [same, chosen] at chosen'
  rwa [Except.ok.inj chosen']

/-- What a stretch of a survey achieves: if it is not stopped it has visited its targets and all that its
new classes use, and if it is, a class has no stored choice. -/
structure Progress (s : Selection α) (g : EGraph α) (P : ClassId → Prop) (targets : List ClassId)
    (w w' : Walk α) : Prop where
  drawn : Drawn s g w'.visits
  kept : ∀ c ∈ w.visits.map Visit.eclass, c ∈ w'.visits.map Visit.eclass
  new : ∀ c ∈ w'.visits.map Visit.eclass, c ∈ w.visits.map Visit.eclass ∨ P c ∧ c ∈ g.classes
  reached : w'.stopped = none → w.stopped = none ∧ ∀ c ∈ targets, c ∈ w'.visits.map Visit.eclass
  closed : w'.stopped = none → ∀ c ∈ w'.visits.map Visit.eclass,
    c ∈ w.visits.map Visit.eclass ∨ ∀ d, s.Uses g c d → d ∈ w'.visits.map Visit.eclass
  gap : ∀ e, w'.stopped = some e → w.stopped = some e ∨ Gap s g P e

variable {P : ClassId → Prop} {targets : List ClassId} {w w' : Walk α}

theorem Progress.refl (drawn : Drawn s g w.visits)
    (done : w.stopped = none → ∀ c ∈ targets, c ∈ w.visits.map Visit.eclass) :
    Progress s g P targets w w :=
  ⟨drawn, fun _ h => h, fun _ h => .inl h, fun none => ⟨none, done none⟩, fun _ _ h => .inl h,
    fun _ h => .inl h⟩

theorem Progress.stop (drawn : Drawn s g w.visits) {e : CheckError} (gap : Gap s g P e) :
    Progress s g P targets w (w.stop e) := by
  constructor
  · exact drawn
  · exact fun _ h => h
  · exact fun _ h => .inl h
  · intro none
    cases none
  · intro none
    cases none
  · intro e' h
    obtain rfl := Option.some.inj h
    exact .inr gap

theorem Progress.foldl {step : Walk α → ClassId → Walk α} (drawn : Drawn s g w.visits)
    (each : ∀ c ∈ targets, ∀ w' : Walk α, Drawn s g w'.visits →
      (∀ d ∈ w.visits.map Visit.eclass, d ∈ w'.visits.map Visit.eclass) →
      Progress s g P [c] w' (step w' c)) :
    Progress s g P targets w (targets.foldl step w) := by
  induction targets generalizing w with
  | nil => exact .refl drawn fun _ c h => by cases h
  | cons c targets ih =>
    obtain ⟨head, tail⟩ := List.forall_mem_cons.1 each
    have first := head w drawn fun _ h => h
    have rest := ih first.drawn fun d mem w' drawn kept =>
      tail d mem w' drawn fun e h => kept e (first.kept e h)
    rw [List.foldl_cons]
    constructor
    · exact rest.drawn
    · exact fun d h => rest.kept d (first.kept d h)
    · intro d h
      obtain old | new := rest.new d h
      · exact first.new d old
      · exact .inr new
    · intro none
      obtain ⟨none', others⟩ := rest.reached none
      obtain ⟨none'', this⟩ := first.reached none'
      exact ⟨none'', List.forall_mem_cons.2 ⟨rest.kept c (this c List.mem_cons_self), others⟩⟩
    · intro none d h
      obtain old | uses := rest.closed none d h
      · obtain older | uses := first.closed (rest.reached none).1 d old
        · exact .inl older
        · exact .inr fun e use => rest.kept e (uses e use)
      · exact .inr uses
    · intro e stopped
      obtain earlier | gap := rest.gap e stopped
      · exact first.gap e earlier
      · exact .inr gap

/-- A class is taken up before its children are explored. -/
theorem Progress.takeUp {v : Visit α} (inner : Progress s g P v.node.children.reverse (w.add v) w')
    (here : P v.eclass) (known : v.eclass ∈ g.classes) (chosen : s.chosen g v.eclass = .ok v) :
    Progress s g P [v.eclass] w w' := by
  have taken : v.eclass ∈ w'.visits.map Visit.eclass := inner.kept _ List.mem_cons_self
  constructor
  · exact inner.drawn
  · exact fun d h => inner.kept d (List.mem_cons_of_mem _ h)
  · intro d h
    obtain old | new := inner.new d h
    · obtain rfl | older := List.mem_cons.1 old
      · exact .inr ⟨here, known⟩
      · exact .inl older
    · exact .inr new
  · intro none
    refine ⟨(inner.reached none).1, ?_⟩
    intro d target
    rwa [List.mem_singleton.1 target]
  · intro none d h
    obtain old | uses := inner.closed none d h
    · obtain rfl | older := List.mem_cons.1 old
      · right
        intro e use
        have child := (uses_iff_of_chosen chosen).1 use
        exact (inner.reached none).2 e (List.mem_reverse.2 child)
      · exact .inl older
    · exact .inr uses
  · exact inner.gap

/-- Exploring a class visits it and all that it leads to, or finds a class without a stored choice. -/
theorem explore_progress (closed : ∀ {c d}, P c → s.Uses g c d → P d) {fresh : List ClassId}
    {c : ClassId} (drawn : Drawn s g w.visits) (here : P c)
    (inside : ∀ d ∈ fresh, d ∈ g.classes)
    (rest : ∀ d ∈ g.classes, d ∉ w.visits.map Visit.eclass → d ∈ fresh) :
    Progress s g P [c] w (s.explore g fresh w c) := by
  -- Classes that are not being explored get fewer inward; whatever else is not among them is visited.
  induction length : fresh.length using Nat.strongRecOn generalizing fresh w c with
  | ind n ih =>
    rw [explore]
    split
    · rename_i passed
      apply Progress.refl drawn
      intro none d target
      rw [none, Option.isSome_none, Bool.false_or, contains_iff] at passed
      rwa [List.mem_singleton.1 target]
    rename_i goes
    rw [Bool.or_eq_true, not_or, contains_iff] at goes
    obtain ⟨_, unvisited⟩ := goes
    split
    · rename_i known
      split
      · rename_i e missing
        exact .stop drawn (.choice here missing)
      · rename_i v chosen
        obtain ⟨rfl, _⟩ := chosen_eq_ok.1 chosen
        have shorter : (fresh.erase v.eclass).length < n := length ▸ length_erase_lt known
        refine Progress.takeUp ?_ here (inside _ known) chosen
        apply Progress.foldl (drawn.cons chosen unvisited)
        intro d child w' drawn' kept
        have use := (uses_iff_of_chosen chosen).2 (List.mem_reverse.1 child)
        refine ih _ shorter drawn' (closed here use)
          (fun e mem => inside e (List.mem_of_mem_erase mem)) ?_ rfl
        intro e mem apart
        have other : e ≠ v.eclass := fun same => apart (kept e (same ▸ List.mem_cons_self))
        exact (List.mem_erase_of_ne other).2
          (rest e mem fun old => apart (kept e (List.mem_cons_of_mem _ old)))
    · rename_i unknown
      exact .stop drawn (.unknown here fun mem => unknown (rest c mem unvisited))

section Survey
variable {roots : List ClassId}

theorem survey_progress (s : Selection α) (g : EGraph α) (roots : List ClassId) :
    Progress s g (s.Below g roots) roots.reverse .start (s.survey g roots) := by
  apply Progress.foldl .nil
  intro c root w drawn _
  refine explore_progress (fun h use => h.uses use) drawn ?_ (fun _ mem => mem) fun d mem _ => mem
  exact ⟨c, List.mem_reverse.1 root, .refl⟩

/-- A survey that ends well has visited the classes below the roots, each once and by its choice. -/
theorem drawn_of_survey {visits : List (Visit α)} (ok : (s.survey g roots).result = .ok visits) :
    Drawn s g visits ∧ ∀ c, c ∈ visits.map Visit.eclass ↔ s.Below g roots c := by
  have progress := s.survey_progress g roots
  obtain ⟨none, rfl⟩ := result_eq_ok.1 ok
  have same : ∀ c, c ∈ (s.survey g roots).visits.reverse.map Visit.eclass ↔
      c ∈ (s.survey g roots).visits.map Visit.eclass := by
    intro c
    rw [List.map_reverse, List.mem_reverse]
  refine ⟨⟨?_, ?_⟩, ?_⟩
  · exact fun v mem => progress.drawn.chosen v (List.mem_reverse.1 mem)
  · rw [List.map_reverse, List.nodup_reverse]
    exact progress.drawn.nodup
  intro c
  rw [same]
  constructor
  · intro visited
    obtain old | ⟨below, _⟩ := progress.new c visited
    · cases old
    · exact below
  · rintro ⟨r, root, path⟩
    induction path with
    | refl => exact (progress.reached none).2 r (List.mem_reverse.2 root)
    | tail _ use ih =>
      obtain old | uses := progress.closed none _ ih
      · cases old
      · exact uses _ use

/-- Below a class there is the class itself and what is below the classes that it uses. -/
theorem below_singleton {c d : ClassId} :
    s.Below g [c] d ↔ d = c ∨ ∃ e, s.Uses g c e ∧ s.Below g [e] d := by
  simp only [Below, List.mem_singleton, exists_eq_left]
  rw [ReflTransGen.cases_head_iff, eq_comm]

theorem below_self (c : ClassId) : s.Below g [c] c := ⟨c, List.mem_singleton_self c, .refl⟩

theorem Below.trans {c d : ClassId} (h : s.Below g roots c) (further : s.Below g [c] d) :
    s.Below g roots d := by
  obtain ⟨r, root, path⟩ := h
  obtain ⟨c', same, onward⟩ := further
  obtain rfl := List.mem_singleton.1 same
  exact ⟨r, root, ReflTransGen.trans path onward⟩

/-- Below classes of the graph there are only classes of the graph. -/
theorem Below.mem_classes (inside : ∀ r ∈ roots, r ∈ g.classes) {c : ClassId}
    (below : s.Below g roots c) : c ∈ g.classes := by
  obtain ⟨r, root, path⟩ := below
  cases path with
  | refl => exact inside _ root
  | tail _ use =>
    obtain ⟨_, _, _, stored, child⟩ := use
    exact EGraph.child_mem_classes stored child

/-- A survey that ends well has visited nothing but classes of the graph. -/
theorem mem_classes_of_survey {visits : List (Visit α)} (ok : (s.survey g roots).result = .ok visits) :
    ∀ v ∈ visits, v.eclass ∈ g.classes := by
  obtain ⟨none, rfl⟩ := result_eq_ok.1 ok
  intro v mem
  have visited := List.mem_map_of_mem (f := Visit.eclass) (List.mem_reverse.1 mem)
  obtain old | ⟨_, known⟩ := (s.survey_progress g roots).new _ visited
  · cases old
  · exact known

/-- The survey ends well exactly if every class below the roots is in the graph and has a stored choice. -/
theorem survey_ok_iff_known :
    (∃ visits, (s.survey g roots).result = .ok visits) ↔
      ∀ c, s.Below g roots c → c ∈ g.classes ∧ ∃ v, s.chosen g c = .ok v := by
  constructor
  · rintro ⟨visits, ok⟩ c below
    obtain ⟨drawn, visited⟩ := drawn_of_survey ok
    obtain ⟨v, mem, rfl⟩ := List.mem_map.1 ((visited c).2 below)
    exact ⟨mem_classes_of_survey ok v mem, v, drawn.chosen v mem⟩
  · intro stored
    cases result : (s.survey g roots).result with
    | ok visits => exact ⟨visits, rfl⟩
    | error e =>
      have gap := (s.survey_progress g roots).gap e (result_eq_error.1 result)
      cases gap.resolve_left (by simp [Walk.start]) with
      | unknown below absent => exact absurd (stored _ below).1 absent
      | choice below missing =>
        obtain ⟨_, v, ok⟩ := stored _ below
        cases ok.symm.trans missing

/-- Below roots in the graph, all that matters is that every class has a stored choice. -/
theorem survey_ok_iff (inside : ∀ r ∈ roots, r ∈ g.classes) :
    (∃ visits, (s.survey g roots).result = .ok visits) ↔
      ∀ c, s.Below g roots c → ∃ v, s.chosen g c = .ok v := by
  rw [survey_ok_iff_known]
  exact ⟨fun stored c below => (stored c below).2,
    fun stored c below => ⟨below.mem_classes inside, stored c below⟩⟩

end Survey

end Selection

end Extraction
