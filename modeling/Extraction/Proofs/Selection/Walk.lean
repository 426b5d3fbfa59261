import Extraction.Proofs.Graph.Lookup
import Extraction.Selection.Walk
import Mathlib.Data.List.Chain
import Mathlib.Data.List.Nodup
import Mathlib.Logic.Relation

/-! The walk in post-order. It ends well exactly if every class below the roots has a proper choice and no
cycle of choices is below the roots; then it has taken up each class below the roots once and after the
classes that its node uses. Where it stops, the reason is found below the roots. -/
namespace Extraction
open Relation

variable {α : Type} [Cost α]

namespace Selection

/-- The node chosen for `c` has `d` among its children. -/
def Uses (s : Selection α) (g : EGraph α) (c d : ClassId) : Prop :=
  ∃ id node, s.choice? c = some id ∧ g.node? id = some node ∧ d ∈ node.children

/-- The class is reached from one of the roots along chosen nodes. -/
def Below (s : Selection α) (g : EGraph α) (roots : List ClassId) (c : ClassId) : Prop :=
  ∃ r ∈ roots, ReflTransGen (s.Uses g) r c

/-- Distinct classes, each of which uses the next, and the last the first. -/
structure Circle (s : Selection α) (g : EGraph α) (path : List ClassId) : Prop where
  nodup : path.Nodup
  chain : path.IsChain (s.Uses g)
  closed : ∃ first last, path.head? = some first ∧ path.getLast? = some last ∧ s.Uses g last first

/-- What can be wrong with the choices for the classes that `P` holds of. -/
inductive Fault (s : Selection α) (g : EGraph α) (P : ClassId → Prop) : CheckError → Prop
  | cycle {path : List ClassId} (circle : s.Circle g path) (below : ∀ c ∈ path, P c) :
      Fault s g P (.cycle path)
  | unknown {c : ClassId} (below : P c) (absent : c ∉ g.classes) : Fault s g P (.unknownClass c)
  | choice {c : ClassId} {e : CheckError} (below : P c) (improper : s.chosenMember g c = .error e) :
      Fault s g P e

/-- Visits, latest first, each of a proper choice whose children were visited before. -/
inductive Grounded (s : Selection α) (g : EGraph α) : List (Visit α) → Prop
  | nil : Grounded s g []
  | cons {v : Visit α} {visits : List (Visit α)} (rest : Grounded s g visits)
      (proper : s.chosenMember g v.eclass = .ok v)
      (below : ∀ d ∈ v.node.children, d ∈ visits.map Visit.eclass)
      (fresh : v.eclass ∉ visits.map Visit.eclass) : Grounded s g (v :: visits)

variable {s : Selection α} {g : EGraph α}

theorem length_erase_lt {fresh : List ClassId} {c : ClassId} (known : c ∈ fresh) :
    (fresh.erase c).length < fresh.length := by
  have := List.length_erase_of_mem known
  have := List.length_pos_of_mem known
  omega

theorem chosen_eq_ok {c : ClassId} {v : Visit α} :
    s.chosen g c = .ok v ↔ v.eclass = c ∧ s.choice? c = some v.id ∧ g.node? v.id = some v.node := by
  obtain ⟨d, id, node⟩ := v
  unfold chosen
  cases choice : s.choice? c with
  | none => simp
  | some id' =>
    cases stored : g.node? id' with
    | none =>
      simp only [stored, reduceCtorEq, Option.some.injEq, false_iff]
      rintro ⟨_, rfl, found⟩
      cases stored.symm.trans found
    | some node' =>
      simp only [stored, Except.ok.injEq, Visit.mk.injEq, Option.some.injEq]
      constructor
      · rintro ⟨rfl, rfl, rfl⟩
        exact ⟨rfl, rfl, stored⟩
      · rintro ⟨rfl, rfl, found⟩
        exact ⟨rfl, rfl, Option.some.inj (stored.symm.trans found)⟩

theorem chosenMember_eq_ok_iff {c : ClassId} {v : Visit α} :
    s.chosenMember g c = .ok v ↔ s.chosen g c = .ok v ∧ v.node.eclass = c := by
  unfold chosenMember
  cases s.chosen g c with
  | error e => simp
  | ok u =>
    simp only [Except.ok.injEq]
    constructor
    · intro ok
      split at ok
      · rename_i owner
        obtain rfl := Except.ok.inj ok
        exact ⟨rfl, owner⟩
      · cases ok
    · rintro ⟨rfl, owner⟩
      rw [if_pos owner]

theorem chosenMember_eq_ok {c : ClassId} {v : Visit α} :
    s.chosenMember g c = .ok v ↔
      v.eclass = c ∧ s.choice? c = some v.id ∧ g.node? v.id = some v.node ∧ v.node.eclass = c := by
  rw [chosenMember_eq_ok_iff, chosen_eq_ok, and_assoc, and_assoc]

theorem uses_iff_of_chosen {c d : ClassId} {v : Visit α} (h : s.chosen g c = .ok v) :
    s.Uses g c d ↔ d ∈ v.node.children := by
  obtain ⟨_, choice, stored⟩ := chosen_eq_ok.1 h
  constructor
  · rintro ⟨id, node, choice', stored', child⟩
    obtain rfl := Option.some.inj (choice.symm.trans choice')
    obtain rfl := Option.some.inj (stored.symm.trans stored')
    exact child
  · exact fun child => ⟨v.id, v.node, choice, stored, child⟩

theorem uses_iff_of_chosenMember {c d : ClassId} {v : Visit α} (h : s.chosenMember g c = .ok v) :
    s.Uses g c d ↔ d ∈ v.node.children := uses_iff_of_chosen (chosenMember_eq_ok_iff.1 h).1

namespace Grounded

theorem proper {visits : List (Visit α)} (h : Grounded s g visits) :
    ∀ v ∈ visits, s.chosenMember g v.eclass = .ok v := by
  induction h with
  | nil => exact fun v mem => by cases mem
  | cons _ proper _ _ ih => exact List.forall_mem_cons.2 ⟨proper, ih⟩

theorem nodup {visits : List (Visit α)} (h : Grounded s g visits) :
    (visits.map Visit.eclass).Nodup := by
  induction h with
  | nil => exact List.nodup_nil
  | cons _ _ _ fresh ih => exact List.nodup_cons.2 ⟨fresh, ih⟩

/-- What a visited class leads to has been visited, and does not lead back. -/
theorem leads {visits : List (Visit α)} (h : Grounded s g visits) {c d : ClassId}
    (visited : c ∈ visits.map Visit.eclass) (path : TransGen (s.Uses g) c d) :
    d ∈ visits.map Visit.eclass ∧ d ≠ c := by
  induction h generalizing c with
  | nil => cases visited
  | @cons v visits rest proper below fresh ih =>
    obtain rfl | earlier := List.mem_cons.1 visited
    · obtain ⟨e, use, onward⟩ := TransGen.head'_iff.1 path
      have inner := below e ((uses_iff_of_chosenMember proper).1 use)
      have reached : d ∈ visits.map Visit.eclass := by
        obtain rfl | further := reflTransGen_iff_eq_or_transGen.1 onward
        · exact inner
        · exact (ih inner further).1
      exact ⟨List.mem_cons_of_mem _ reached, fun same => fresh (same ▸ reached)⟩
    · obtain ⟨reached, other⟩ := ih earlier path
      exact ⟨List.mem_cons_of_mem _ reached, other⟩

/-- What a visited node uses was visited earlier. -/
theorem children_of_split {visits : List (Visit α)} (h : Grounded s g visits)
    {later earlier : List (Visit α)} {v : Visit α} (split : visits = later ++ v :: earlier) :
    ∀ d ∈ v.node.children, d ∈ earlier.map Visit.eclass := by
  induction h generalizing later with
  | nil => simp at split
  | cons _ _ below _ ih =>
    cases later with
    | nil =>
      obtain ⟨rfl, rfl⟩ := List.cons.inj split
      exact below
    | cons _ later => exact ih (List.cons.inj split).2

/-- What passes from the children of a visited node to its class holds of all visited classes. -/
theorem visit_induction {visits : List (Visit α)} (h : Grounded s g visits) {Q : ClassId → Prop}
    (step : ∀ v ∈ visits, (∀ d ∈ v.node.children, Q d) → Q v.eclass) :
    ∀ v ∈ visits, Q v.eclass := by
  induction h with
  | nil => exact fun v mem => by cases mem
  | @cons v visits rest _ below _ ih =>
    obtain ⟨first, others⟩ := List.forall_mem_cons.1 step
    have earlier := ih others
    refine List.forall_mem_cons.2 ⟨first ?_, earlier⟩
    intro d child
    obtain ⟨u, mem, same⟩ := List.mem_map.1 (below d child)
    exact same ▸ earlier u mem

end Grounded

omit [Cost α] in
theorem contains_iff {w : Walk α} {c : ClassId} :
    w.contains c = true ↔ c ∈ w.visits.map Visit.eclass := by
  simp [Walk.contains]

omit [Cost α] in
theorem result_eq_ok {w : Walk α} {visits : List (Visit α)} :
    w.result = .ok visits ↔ w.stopped = none ∧ w.visits.reverse = visits := by
  unfold Walk.result
  cases w.stopped <;> simp

omit [Cost α] in
theorem result_eq_error {w : Walk α} {e : CheckError} : w.result = .error e ↔ w.stopped = some e := by
  unfold Walk.result
  cases w.stopped <;> simp

/-- What a stretch of a walk achieves: it keeps visits grounded and adds none on the path; if it is not
stopped it has visited its targets, and if it is, something is wrong. -/
structure Advance (s : Selection α) (g : EGraph α) (P : ClassId → Prop) (path : List ClassId)
    (targets : List ClassId) (w w' : Walk α) : Prop where
  grounded : Grounded s g w'.visits
  kept : ∀ c ∈ w.visits.map Visit.eclass, c ∈ w'.visits.map Visit.eclass
  new : ∀ c ∈ w'.visits.map Visit.eclass, c ∈ w.visits.map Visit.eclass ∨ P c ∧ c ∉ path
  reached : w'.stopped = none → w.stopped = none ∧ ∀ c ∈ targets, c ∈ w'.visits.map Visit.eclass
  fault : ∀ e, w'.stopped = some e → w.stopped = some e ∨ Fault s g P e

variable {P : ClassId → Prop} {path targets : List ClassId} {w w' : Walk α}

theorem Advance.refl (grounded : Grounded s g w.visits)
    (done : w.stopped = none → ∀ c ∈ targets, c ∈ w.visits.map Visit.eclass) :
    Advance s g P path targets w w :=
  ⟨grounded, fun _ h => h, fun _ h => .inl h, fun none => ⟨none, done none⟩, fun _ h => .inl h⟩

theorem Advance.stop (grounded : Grounded s g w.visits) {e : CheckError} (fault : Fault s g P e) :
    Advance s g P path targets w (w.stop e) := by
  constructor
  · exact grounded
  · exact fun _ h => h
  · exact fun _ h => .inl h
  · intro none
    cases none
  · intro e' h
    obtain rfl := Option.some.inj h
    exact .inr fault

theorem Advance.foldl {step : Walk α → ClassId → Walk α} (grounded : Grounded s g w.visits)
    (each : ∀ c ∈ targets, ∀ w : Walk α, Grounded s g w.visits →
      Advance s g P path [c] w (step w c)) :
    Advance s g P path targets w (targets.foldl step w) := by
  induction targets generalizing w with
  | nil => exact .refl grounded fun _ c h => by cases h
  | cons c targets ih =>
    obtain ⟨head, tail⟩ := List.forall_mem_cons.1 each
    have first := head w grounded
    have rest := ih first.grounded tail
    rw [List.foldl_cons]
    constructor
    · exact rest.grounded
    · exact fun d h => rest.kept d (first.kept d h)
    · intro d h
      obtain old | new := rest.new d h
      · exact first.new d old
      · exact .inr new
    · intro none
      obtain ⟨none', others⟩ := rest.reached none
      obtain ⟨none'', this⟩ := first.reached none'
      refine ⟨none'', List.forall_mem_cons.2 ⟨rest.kept c (this c List.mem_cons_self), others⟩⟩
    · intro e stopped
      obtain earlier | fault := rest.fault e stopped
      · exact first.fault e earlier
      · exact .inr fault

/-- Coming back to a class on the path closes a circle. -/
theorem circle_of_mem_path {c : ClassId} (chain : (c :: path).IsChain fun d e => s.Uses g e d)
    (nodup : path.Nodup) (again : c ∈ path) :
    s.Circle g (c :: (path.takeWhile fun d => d ≠ c).reverse) := by
  obtain ⟨inner, outer, rfl, off⟩ := List.eq_append_cons_of_mem again
  have taken : (inner ++ c :: outer).takeWhile (fun d => d ≠ c) = inner := by
    rw [List.takeWhile_append_of_pos fun d mem => by simpa using fun same : d = c => off (same ▸ mem),
      List.takeWhile_cons_of_neg (by simp), List.append_nil]
  rw [taken]
  have back : ((c :: inner.reverse) ++ [c]).IsChain (s.Uses g) := by
    have split : c :: (inner ++ c :: outer) = (c :: inner ++ [c]) ++ outer := by simp
    have turned : (c :: inner.reverse) ++ [c] = (c :: inner ++ [c]).reverse := by simp
    rw [turned, List.isChain_reverse]
    exact (split ▸ chain).left_of_append
  obtain ⟨onward, _, around⟩ := List.isChain_append.1 back
  refine ⟨List.nodup_cons.2 ⟨?_, ?_⟩, onward, c, _, rfl, List.getLast?_eq_some_getLast (by simp), ?_⟩
  · rwa [List.mem_reverse]
  · exact List.nodup_reverse.2 (List.nodup_append.1 nodup).1
  · exact around _ (List.getLast?_eq_some_getLast (by simp)) c rfl

/-- When the children of a class are done, the class itself is taken up. -/
theorem Advance.finish {c : ClassId} {v : Visit α}
    (inner : Advance s g P (c :: path) v.node.children w w') (here : P c) (off : c ∉ path)
    (proper : s.chosenMember g c = .ok v) (unvisited : c ∉ w.visits.map Visit.eclass) :
    Advance s g P path [c] w (if w'.stopped.isSome then w' else w'.add v) := by
  obtain ⟨rfl, -⟩ := chosenMember_eq_ok.1 proper
  have new : ∀ d ∈ w'.visits.map Visit.eclass, d ∈ w.visits.map Visit.eclass ∨ P d ∧ d ∉ path := by
    intro d mem
    obtain old | ⟨below, apart⟩ := inner.new d mem
    · exact .inl old
    · exact .inr ⟨below, fun on => apart (List.mem_cons_of_mem _ on)⟩
  split
  · rename_i stopped
    refine ⟨inner.grounded, inner.kept, new, ?_, inner.fault⟩
    intro none
    rw [none] at stopped
    cases stopped
  · rename_i goes
    have none : w'.stopped = none := by simpa using goes
    obtain ⟨begun, children⟩ := inner.reached none
    have fresh : v.eclass ∉ w'.visits.map Visit.eclass := by
      intro mem
      obtain old | ⟨_, apart⟩ := inner.new _ mem
      · exact unvisited old
      · exact apart List.mem_cons_self
    constructor
    · exact .cons inner.grounded proper children fresh
    · exact fun d mem => List.mem_cons_of_mem _ (inner.kept d mem)
    · intro d mem
      obtain rfl | earlier := List.mem_cons.1 mem
      · exact .inr ⟨here, off⟩
      · exact new d earlier
    · intro _
      refine ⟨begun, ?_⟩
      intro d target
      rw [List.mem_singleton.1 target]
      exact List.mem_cons_self
    · intro e stopped
      exact inner.fault e stopped

/-- Entering a class visits it and all that it leads to, or finds what is wrong. -/
theorem enter_advance (closed : ∀ {c d}, P c → s.Uses g c d → P d) {fresh : List ClassId}
    {c : ClassId} (grounded : Grounded s g w.visits) (here : P c) (above : ∀ d ∈ path, P d)
    (chain : (c :: path).IsChain fun d e => s.Uses g e d) (nodup : path.Nodup)
    (rest : ∀ d ∈ g.classes, d ∉ path → d ∈ fresh) :
    Advance s g P path [c] w (s.enter g fresh path w c) := by
  induction length : fresh.length using Nat.strongRecOn generalizing fresh path w c with
  | ind n ih =>
    rw [enter]
    split
    · rename_i passed
      apply Advance.refl grounded
      intro none d target
      rw [none, Option.isSome_none, Bool.false_or, contains_iff] at passed
      rw [List.mem_singleton.1 target]
      exact passed
    rename_i goes
    rw [Bool.or_eq_true, not_or, contains_iff] at goes
    obtain ⟨_, unvisited⟩ := goes
    split
    · rename_i again
      refine .stop grounded (.cycle (circle_of_mem_path chain nodup again) ?_)
      intro d mem
      obtain rfl | inner := List.mem_cons.1 mem
      · exact here
      · exact above d ((List.takeWhile_sublist _).subset (List.mem_reverse.1 inner))
    rename_i off
    split
    · rename_i known
      split
      · rename_i e improper
        exact .stop grounded (.choice here improper)
      · rename_i v proper
        have shorter : (fresh.erase c).length < n := length ▸ length_erase_lt known
        have inner : Advance s g P (c :: path) v.node.children w
            (v.node.children.foldl (fun w d => s.enter g (fresh.erase c) (c :: path) w d) w) := by
          apply Advance.foldl grounded
          intro d child w grounded
          have use := (uses_iff_of_chosenMember proper).2 child
          refine ih _ shorter grounded (closed here use) (List.forall_mem_cons.2 ⟨here, above⟩)
            (List.isChain_cons_cons.2 ⟨use, chain⟩) (List.nodup_cons.2 ⟨off, nodup⟩) ?_ rfl
          intro e mem apart
          rw [List.mem_cons, not_or] at apart
          exact (List.mem_erase_of_ne apart.1).2 (rest e mem apart.2)
        generalize v.node.children.foldl _ w = below at inner ⊢
        exact inner.finish here off proper unvisited
    · rename_i unknown
      exact .stop grounded (.unknown here fun mem => unknown (rest c mem off))

theorem Below.uses {roots : List ClassId} {c d : ClassId} (h : s.Below g roots c)
    (use : s.Uses g c d) : s.Below g roots d := by
  obtain ⟨r, root, path⟩ := h
  exact ⟨r, root, path.tail use⟩

/-- What holds of all uses on a circle leads round. -/
theorem Circle.exists_transGen (circle : s.Circle g path) {R : ClassId → ClassId → Prop}
    (holds : ∀ c ∈ path, ∀ d ∈ path, s.Uses g c d → R c d) : ∃ c ∈ path, TransGen R c c := by
  have chain := circle.chain.imp_of_mem_imp fun c d mem mem' => holds c mem d mem'
  obtain ⟨first, last, head, final, use⟩ := circle.closed
  have closed := holds last (List.mem_of_getLast? final) first (List.mem_of_head? head) use
  cases path with
  | nil => cases head
  | cons c path =>
    obtain rfl := Option.some.inj head
    have along : ReflTransGen R c last := by
      apply List.relationReflTransGen_of_exists_isChain_cons path chain
      exact Option.some.inj ((List.getLast?_eq_some_getLast _).symm.trans final)
    exact ⟨c, List.mem_cons_self, TransGen.tail' along closed⟩

section PostOrder
variable {roots : List ClassId}

theorem postOrder_advance (s : Selection α) (g : EGraph α) (roots : List ClassId) :
    Advance s g (s.Below g roots) [] roots .start (s.postOrder g roots) := by
  apply Advance.foldl .nil
  intro c root w grounded
  apply enter_advance (fun h use => h.uses use) grounded ⟨c, root, .refl⟩
  · intro d mem
    cases mem
  · exact List.isChain_singleton c
  · exact List.nodup_nil
  · exact fun d mem _ => mem

/-- A walk that ends well has visited the classes below the roots, each after those it uses. -/
theorem grounded_of_postOrder {visits : List (Visit α)}
    (ok : (s.postOrder g roots).result = .ok visits) :
    Grounded s g visits.reverse ∧ ∀ c, c ∈ visits.map Visit.eclass ↔ s.Below g roots c := by
  have advance := s.postOrder_advance g roots
  obtain ⟨none, listed⟩ := result_eq_ok.1 ok
  have same : ∀ c, c ∈ visits.map Visit.eclass ↔
      c ∈ (s.postOrder g roots).visits.map Visit.eclass := by
    intro c
    rw [← listed, List.map_reverse, List.mem_reverse]
  constructor
  · rw [← listed, List.reverse_reverse]
    exact advance.grounded
  intro c
  rw [same]
  constructor
  · intro visited
    rcases advance.new c visited with old | ⟨below, _⟩
    · cases old
    · exact below
  · rintro ⟨r, root, path⟩
    have start := (advance.reached none).2 r root
    rcases reflTransGen_iff_eq_or_transGen.1 path with rfl | onward
    · exact start
    · exact (advance.grounded.leads start onward).1

/-- A walk in post-order that ends well has visited each class after all that its node uses. -/
theorem before_of_postOrder {visits : List (Visit α)}
    (ok : (s.postOrder g roots).result = .ok visits)
    {before after : List (Visit α)} {v : Visit α} (split : visits = before ++ v :: after) :
    ∀ d ∈ v.node.children, d ∈ before.map Visit.eclass := by
  obtain ⟨grounded, _⟩ := grounded_of_postOrder ok
  have turned : visits.reverse = after.reverse ++ v :: before.reverse := by rw [split]; simp
  intro d child
  rw [← List.mem_reverse, ← List.map_reverse]
  exact grounded.children_of_split turned d child

theorem fault_of_postOrder {e : CheckError} (error : (s.postOrder g roots).result = .error e) :
    Fault s g (s.Below g roots) e :=
  ((s.postOrder_advance g roots).fault e (result_eq_error.1 error)).resolve_left (by simp [Walk.start])

/-- The walk ends well exactly if all below the roots is properly chosen and nothing goes round. -/
theorem postOrder_ok_iff (s : Selection α) (g : EGraph α) (roots : List ClassId) :
    (∃ visits, (s.postOrder g roots).result = .ok visits) ↔
    ∀ c, s.Below g roots c → (∃ v, s.chosenMember g c = .ok v) ∧ ¬ TransGen (s.Uses g) c c := by
  constructor
  · rintro ⟨visits, ok⟩ c below
    obtain ⟨grounded, visited⟩ := grounded_of_postOrder ok
    have mem : c ∈ visits.reverse.map Visit.eclass := by
      rw [List.map_reverse, List.mem_reverse]
      exact (visited c).2 below
    obtain ⟨v, hv, rfl⟩ := List.mem_map.1 mem
    exact ⟨⟨v, grounded.proper v hv⟩, fun round => (grounded.leads mem round).2 rfl⟩
  · intro proper
    cases result : (s.postOrder g roots).result with
    | ok visits => exact ⟨visits, rfl⟩
    | error e =>
      cases fault_of_postOrder result with
      | cycle circle below =>
        obtain ⟨c, mem, round⟩ := circle.exists_transGen fun _ _ _ _ use => use
        exact absurd round (proper c (below c mem)).2
      | @unknown c below absent =>
        obtain ⟨⟨v, ok⟩, _⟩ := proper c below
        obtain ⟨-, -, stored, owner⟩ := chosenMember_eq_ok.1 ok
        exact absurd (EGraph.mem_classes.2 ⟨v.id, v.node, stored, owner⟩) absent
      | @choice c e below improper =>
        obtain ⟨⟨v, ok⟩, _⟩ := proper c below
        cases ok.symm.trans improper

end PostOrder

end Selection

end Extraction
