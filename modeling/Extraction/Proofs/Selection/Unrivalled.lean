import Extraction.Proofs.Selection.Agreement
import Extraction.Proofs.Selection.Least

/-! Selections without a rival. A selection is unrivalled for a class if whatever realizes the class by other
choices costs more; to see that, it is enough to compare it with finitely many selections. -/
namespace Extraction
open Relation

variable {α : Type} [Cost α]

namespace Selection
variable {s t : Selection α} {g : EGraph α} {roots : List ClassId}

/-- Other choices below a class cost more, if they realize it without a cycle. -/
def Unrivalled (s : Selection α) (g : EGraph α) (c : ClassId) : Prop :=
  ∃ least, s.dagCost g [c] = .ok least ∧
    ∀ (t : Selection α) cost, t.Proper g → t.AcyclicBelow g [c] → t.dagCost g [c] = .ok cost →
      least < cost ∨ ∀ d, t.Below g [c] d → t.choice? d = s.choice? d

/-- The dag cost of a class is defined only where one of its nodes is chosen. -/
theorem exists_chosen_of_dagCost {c : ClassId} {cost : α} (spent : s.dagCost g [c] = .ok cost) :
    ∃ v, s.chosen g c = .ok v := by
  obtain ⟨visits, walk, _⟩ := dagCost_eq_ok.1 spent
  obtain ⟨drawn, visited⟩ := drawn_of_survey walk
  obtain ⟨v, mem, rfl⟩ := List.mem_map.1 ((visited c).2 ⟨c, List.mem_cons_self, .refl⟩)
  exact ⟨v, drawn.chosen v mem⟩

/-- The nodes, each chosen for its own class. -/
def ofPicks (ids : List NodeId) : Selection α :=
  ids.foldr (fun id s => s.choose id.owner id) ∅

omit [Cost α] in
theorem choice?_ofPicks (ids : List NodeId) (c : ClassId) :
    (ofPicks ids : Selection α).choice? c = ids.find? fun id => id.owner = c := by
  induction ids with
  | nil => rfl
  | cons id ids ih =>
    have first : (ofPicks (id :: ids) : Selection α).choice? c =
        if c = id.owner then some id else (ofPicks ids : Selection α).choice? c :=
      choice?_choose _ _ _ _
    rw [first, ih, List.find?_cons]
    by_cases same : id.owner = c
    · simp [same]
    · simp [same, Ne.symm same]

/-- A proper selection chooses what it picks. -/
theorem Proper.choice?_eq_ofPicks (proper : t.Proper g) (c : ClassId) :
    t.choice? c = (ofPicks (t.picks g) : Selection α).choice? c := by
  rw [choice?_ofPicks]
  cases found : (t.picks g).find? fun id => id.owner = c with
  | none =>
    rw [Option.eq_none_iff_forall_ne_some]
    intro id choice
    obtain ⟨picked, owner⟩ := proper.choice?_iff.1 choice
    exact absurd owner (by simpa using List.find?_eq_none.1 found id picked)
  | some id =>
    exact proper.choice?_iff.2 ⟨List.mem_of_find?_eq_some found, by simpa using List.find?_some found⟩

/-- To be unrivalled it is enough to be so among the selections of nodes of the graph. -/
theorem unrivalled_of_picks {c : ClassId} {least : α} (spent : s.dagCost g [c] = .ok least)
    (rivals : ∀ ids ∈ g.nodes.keys.sublists,
      ∀ visits ∈ ((ofPicks ids : Selection α).survey g [c]).result.toOption,
        least < Cost.sum (visits.map fun v => v.node.cost) ∨
          ∀ v ∈ visits, s.choice? v.eclass = some v.id) : s.Unrivalled g c := by
  refine ⟨least, spent, ?_⟩
  intro t cost proper _ spent'
  have alike := proper.choice?_eq_ofPicks
  obtain ⟨visits, walk, rfl⟩ := dagCost_eq_ok.1 spent'
  obtain ⟨drawn, visited⟩ := drawn_of_survey walk
  have walk' : ((ofPicks (t.picks g) : Selection α).survey g [c]).result = .ok visits := by
    rw [← survey_congr fun d _ => alike d, walk]
  have listed : t.picks g ∈ g.nodes.keys.sublists := List.mem_sublists.2 List.filter_sublist
  refine (rivals _ listed visits (by rw [walk']; rfl)).imp_right ?_
  intro chosen d below
  obtain ⟨v, mem, rfl⟩ := List.mem_map.1 ((visited d).2 below)
  obtain ⟨_, choice, _⟩ := chosen_eq_ok.1 (drawn.chosen v mem)
  rw [choice, chosen v mem]

end Selection

end Extraction
