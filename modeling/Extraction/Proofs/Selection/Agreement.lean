import Extraction.Proofs.Selection.Check

/-! Selections that choose alike below the roots. Both walks look at nothing but the choices below their roots,
so neither does what is computed along them. -/
namespace Extraction
open Relation

variable {α : Type} [Cost α]

namespace Selection
variable {s t : Selection α} {g : EGraph α} {roots : List ClassId}

theorem chosen_congr {c : ClassId} (same : t.choice? c = s.choice? c) :
    t.chosen g c = s.chosen g c := by
  rw [chosen, chosen, same]

theorem chosenMember_congr {c : ClassId} (same : t.choice? c = s.choice? c) :
    t.chosenMember g c = s.chosenMember g c := by
  rw [chosenMember, chosenMember, chosen_congr same]

theorem uses_congr {c d : ClassId} (same : t.choice? c = s.choice? c) :
    t.Uses g c d ↔ s.Uses g c d := by
  rw [Uses, Uses, same]

/-- What chooses alike below the roots has the same classes below the roots. -/
theorem below_congr (same : ∀ c, t.Below g roots c → t.choice? c = s.choice? c) {c : ClassId} :
    t.Below g roots c ↔ s.Below g roots c := by
  constructor
  · rintro ⟨r, root, path⟩
    refine ⟨r, root, ?_⟩
    induction path with
    | refl => exact .refl
    | tail before use ih => exact ih.tail ((uses_congr (same _ ⟨r, root, before⟩)).1 use)
  · rintro ⟨r, root, path⟩
    induction path with
    | refl => exact ⟨r, root, .refl⟩
    | tail _ use ih => exact ih.uses ((uses_congr (same _ ih)).2 use)

section Walks
variable {P : ClassId → Prop} {fresh : List ClassId} {w : Walk α} {c : ClassId}

theorem explore_congr (closed : ∀ {c d}, P c → t.Uses g c d → P d)
    (same : ∀ c, P c → t.choice? c = s.choice? c) (here : P c) :
    t.explore g fresh w c = s.explore g fresh w c := by
  induction length : fresh.length using Nat.strongRecOn generalizing fresh w c with
  | ind n ih =>
    subst length
    rw [explore, explore, chosen_congr (same c here)]
    split
    · rfl
    split
    · rename_i known
      cases chosen : s.chosen g c with
      | error e => rfl
      | ok v =>
        apply List.foldl_ext
        intro w d child
        have use := (uses_iff_of_chosen ((chosen_congr (same c here)).trans chosen)).2
          (List.mem_reverse.1 child)
        exact ih _ (length_erase_lt known) (closed here use) rfl
    · rfl

theorem enter_congr {path : List ClassId} (closed : ∀ {c d}, P c → t.Uses g c d → P d)
    (same : ∀ c, P c → t.choice? c = s.choice? c) (here : P c) :
    t.enter g fresh path w c = s.enter g fresh path w c := by
  induction length : fresh.length using Nat.strongRecOn generalizing fresh path w c with
  | ind n ih =>
    subst length
    rw [enter, enter, chosenMember_congr (same c here)]
    split
    · rfl
    split
    · rfl
    split
    · rename_i known
      cases member : s.chosenMember g c with
      | error e => rfl
      | ok v =>
        have children : v.node.children.foldl (fun w d => t.enter g (fresh.erase c) (c :: path) w d) w =
            v.node.children.foldl (fun w d => s.enter g (fresh.erase c) (c :: path) w d) w := by
          apply List.foldl_ext
          intro w d child
          have use := (uses_iff_of_chosenMember ((chosenMember_congr (same c here)).trans member)).2 child
          exact ih _ (length_erase_lt known) (closed here use) rfl
        simp only [children]
    · rfl

end Walks

section Roots
variable (same : ∀ c, t.Below g roots c → t.choice? c = s.choice? c)
include same

/-- A survey depends on the choices below its roots alone. -/
theorem survey_congr : t.survey g roots = s.survey g roots := by
  apply List.foldl_ext
  intro w c root
  exact explore_congr (fun below use => below.uses use) same ⟨c, List.mem_reverse.1 root, .refl⟩

theorem postOrder_congr : t.postOrder g roots = s.postOrder g roots := by
  apply List.foldl_ext
  intro w c root
  exact enter_congr (fun below use => below.uses use) same ⟨c, root, .refl⟩

theorem dagCost_congr : t.dagCost g roots = s.dagCost g roots := by
  rw [dagCost, dagCost, survey_congr same]

theorem activeNodes_congr : t.activeNodes g roots = s.activeNodes g roots := by
  rw [activeNodes, activeNodes, survey_congr same]

theorem treeCost_congr : t.treeCost g roots = s.treeCost g roots := by
  rw [treeCost, treeCost, postOrder_congr same]

theorem depth_congr : t.depth g roots = s.depth g roots := by
  rw [depth, depth, postOrder_congr same]

end Roots

end Selection

end Extraction
