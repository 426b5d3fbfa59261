import Extraction.Proofs.Selection.Walk
import Extraction.Selection.Measures

/-! Checking a selection. The check passes exactly the valid selections. Of a selection whose chosen nodes
are stored under their classes and stand above chosen classes, and which chooses for all roots, nothing
but a cycle can be wrong. -/
namespace Extraction
open Relation

variable {α : Type} [Cost α]

namespace Selection

/-- No class below the roots comes back to itself along chosen nodes. -/
def AcyclicBelow (s : Selection α) (g : EGraph α) (roots : List ClassId) : Prop :=
  ∀ c, s.Below g roots c → ¬ TransGen (s.Uses g) c c

/-- Every choice is a node of its class. -/
def Proper (s : Selection α) (g : EGraph α) : Prop :=
  ∀ c id, s.choice? c = some id → ∃ node, g.node? id = some node ∧ node.eclass = c

/-- The graph has roots, every choice is a node of its class, every class below the roots has a choice, and
none of them leads back to itself. -/
structure Valid (s : Selection α) (g : EGraph α) : Prop where
  rooted : g.roots ≠ []
  proper : s.Proper g
  complete : ∀ c, s.Below g g.roots c → (s.choice? c).isSome
  acyclic : s.AcyclicBelow g g.roots

/-- Each chosen node is stored under its class, and a node is chosen for each of its children. -/
def Founded (s : Selection α) (g : EGraph α) : Prop :=
  ∀ c id, s.choice? c = some id →
    ∃ node, g.node? id = some node ∧ node.eclass = c ∧ ∀ d ∈ node.children, (s.choice? d).isSome

variable {s : Selection α} {g : EGraph α} {roots : List ClassId}

theorem choiceFault?_eq_none_iff {c : ClassId} {id : NodeId} :
    choiceFault? g c id = none ↔ ∃ node, g.node? id = some node ∧ node.eclass = c := by
  unfold choiceFault?
  cases g.node? id <;> simp

theorem faults_eq_none_iff :
    (s.choices.toList.findSome? fun e => choiceFault? g e.1 e.2) = none ↔ s.Proper g := by
  simp only [Proper, List.findSome?_eq_none_iff, choiceFault?_eq_none_iff, choice?,
    OrderedMap.get?_eq_some_iff, Prod.forall]

theorem unchosen_eq_none_iff :
    (g.roots.find? fun c => (s.choice? c).isNone) = none ↔ ∀ r ∈ g.roots, (s.choice? r).isSome := by
  simp [List.find?_eq_none, Option.isSome_iff_ne_none]

theorem Proper.exists_chosenMember (proper : s.Proper g) {c : ClassId}
    (chosen : (s.choice? c).isSome) : ∃ v, s.chosenMember g c = .ok v := by
  obtain ⟨id, choice⟩ := Option.isSome_iff_exists.1 chosen
  obtain ⟨node, stored, owner⟩ := proper c id choice
  exact ⟨⟨c, id, node⟩, chosenMember_eq_ok.2 ⟨rfl, choice, stored, owner⟩⟩

theorem Valid.exists_postOrder (valid : s.Valid g) :
    ∃ visits, (s.postOrder g g.roots).result = .ok visits :=
  (s.postOrder_ok_iff g g.roots).2 fun c below =>
    ⟨valid.proper.exists_chosenMember (valid.complete c below), valid.acyclic c below⟩

/-- What is left of the check once the roots and the choices have passed one by one is the walk. -/
theorem check_eq_postOrder (rooted : g.roots ≠ []) (chosen : ∀ r ∈ g.roots, (s.choice? r).isSome)
    (proper : s.Proper g) : s.check g = (s.postOrder g g.roots).result.map fun _ => () := by
  unfold check
  rw [if_neg (by simpa using rooted)]
  simp only [unchosen_eq_none_iff.2 chosen, faults_eq_none_iff.2 proper]

/-- What the check looks at before it walks. -/
theorem of_check_eq_ok (ok : s.check g = .ok ()) :
    g.roots ≠ [] ∧ (∀ r ∈ g.roots, (s.choice? r).isSome) ∧ s.Proper g := by
  unfold check at ok
  split at ok
  · cases ok
  rename_i rooted
  split at ok
  · cases ok
  rename_i chosen
  split at ok
  · cases ok
  rename_i proper
  exact ⟨by simpa using rooted, unchosen_eq_none_iff.1 chosen, faults_eq_none_iff.1 proper⟩

theorem check_eq_ok_iff_valid : s.check g = .ok () ↔ s.Valid g := by
  constructor
  · intro ok
    obtain ⟨rooted, chosen, proper⟩ := of_check_eq_ok ok
    rw [check_eq_postOrder rooted chosen proper] at ok
    cases result : (s.postOrder g g.roots).result with
    | error e =>
      rw [result] at ok
      cases ok
    | ok visits =>
      have walk := (s.postOrder_ok_iff g g.roots).1 ⟨visits, result⟩
      refine ⟨rooted, proper, ?_, fun c below => (walk c below).2⟩
      intro c below
      obtain ⟨v, member⟩ := (walk c below).1
      rw [(chosenMember_eq_ok.1 member).2.1]
      rfl
  · intro valid
    obtain ⟨visits, result⟩ := valid.exists_postOrder
    rw [check_eq_postOrder valid.rooted (fun r root => valid.complete r ⟨r, root, .refl⟩) valid.proper,
      result]
    rfl

theorem Founded.proper (founded : s.Founded g) : s.Proper g := by
  intro c id choice
  obtain ⟨node, stored, owner, _⟩ := founded c id choice
  exact ⟨node, stored, owner⟩

theorem Founded.exists_chosenMember (founded : s.Founded g) {c : ClassId}
    (chosen : (s.choice? c).isSome) : ∃ v, s.chosenMember g c = .ok v :=
  founded.proper.exists_chosenMember chosen

theorem Founded.chosen_below (founded : s.Founded g) (rooted : ∀ r ∈ roots, (s.choice? r).isSome)
    {c : ClassId} (below : s.Below g roots c) : (s.choice? c).isSome := by
  obtain ⟨r, root, path⟩ := below
  induction path with
  | refl => exact rooted r root
  | tail _ use _ =>
    obtain ⟨id, node, choice, stored, child⟩ := use
    obtain ⟨node', stored', _, chosen⟩ := founded _ id choice
    obtain rfl := Option.some.inj (stored.symm.trans stored')
    exact chosen _ child

theorem Founded.check_eq_ok_iff (founded : s.Founded g) (some : g.roots ≠ [])
    (rooted : ∀ r ∈ g.roots, (s.choice? r).isSome) :
    s.check g = .ok () ↔ s.AcyclicBelow g g.roots := by
  rw [check_eq_ok_iff_valid]
  exact ⟨Valid.acyclic, fun acyclic =>
    ⟨some, founded.proper, fun _ below => founded.chosen_below rooted below, acyclic⟩⟩

/-- The only fault that the check can find is a circle below the roots. -/
theorem Founded.circle_of_check (founded : s.Founded g) (some : g.roots ≠ [])
    (rooted : ∀ r ∈ g.roots, (s.choice? r).isSome) {e : CheckError} (error : s.check g = .error e) :
    ∃ path, e = .cycle path ∧ s.Circle g path ∧ ∀ c ∈ path, s.Below g g.roots c := by
  rw [check_eq_postOrder some rooted founded.proper] at error
  cases result : (s.postOrder g g.roots).result with
  | ok visits =>
    rw [result] at error
    cases error
  | error e' =>
    rw [result] at error
    obtain rfl := Except.error.inj error
    cases fault_of_postOrder result with
    | @cycle path circle below => exact ⟨path, rfl, circle, below⟩
    | @unknown c below absent =>
      obtain ⟨v, ok⟩ := founded.exists_chosenMember (founded.chosen_below rooted below)
      obtain ⟨-, -, stored, owner⟩ := chosenMember_eq_ok.1 ok
      exact absurd (EGraph.mem_classes.2 ⟨v.id, v.node, stored, owner⟩) absent
    | @choice c e below improper =>
      obtain ⟨v, ok⟩ := founded.exists_chosenMember (founded.chosen_below rooted below)
      cases ok.symm.trans improper

end Selection

end Extraction
