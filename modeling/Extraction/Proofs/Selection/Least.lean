import Extraction.Proofs.Selection.Mirror
import Mathlib.Order.WellFoundedSet

/-! The least cost of the selections that pass the check. Costs depend on what is chosen alone, and there
are finitely many ways to choose in a graph, so that one of them is the cheapest. -/
namespace Extraction

variable {α : Type} [Cost α]

/-- What the cheapest of the selections that pass the check costs. -/
structure EGraph.Least (metric : Selection α → EGraph α → List ClassId → Except CheckError α)
    (g : EGraph α) (a : α) : Prop where
  attained : ∃ s : Selection α, s.check g = .ok () ∧ metric s g g.roots = .ok a
  bound : ∀ s : Selection α, s.check g = .ok () → ∃ b, metric s g g.roots = .ok b ∧ ¬ b < a

namespace Selection
variable {s t : Selection α} {g : EGraph α}
  {metric : Selection α → EGraph α → List ClassId → Except CheckError α}

/-- The nodes that are chosen, in storage order. -/
def picks (s : Selection α) (g : EGraph α) : List NodeId :=
  g.nodes.keys.filter fun id => s.choice? id.owner = some id

theorem Proper.choice?_iff (proper : s.Proper g) {c : ClassId} {id : NodeId} :
    s.choice? c = some id ↔ id ∈ s.picks g ∧ id.owner = c := by
  rw [picks, List.mem_filter, decide_eq_true_iff]
  constructor
  · intro choice
    obtain ⟨node, stored, owner⟩ := proper c id choice
    have same : id.owner = c := (EGraph.owner_of_node? stored).trans owner
    exact ⟨⟨EGraph.mem_keys_iff.2 ⟨node, stored⟩, same ▸ choice⟩, same⟩
  · rintro ⟨⟨_, choice⟩, rfl⟩
    exact choice

/-- Proper selections that pick the same nodes choose alike. -/
theorem choice?_eq_of_picks (proper : s.Proper g) (proper' : t.Proper g)
    (same : s.picks g = t.picks g) (c : ClassId) : s.choice? c = t.choice? c := by
  ext id
  rw [proper.choice?_iff, proper'.choice?_iff, same]

/-- Selections that choose alike cost the same. -/
theorem Metric.eq_of_choice? [ExactCost α] (law : Metric metric) (valid : s.Valid g)
    (same : ∀ c, s.choice? c = t.choice? c) {a b : α} (cost : metric s g g.roots = .ok a)
    (cost' : metric t g g.roots = .ok b) : a = b := by
  have member : ∀ c, s.chosenMember g c = t.chosenMember g c := by
    intro c
    rw [chosenMember, chosenMember, chosen, chosen, same]
  obtain ⟨mirrors, cheap⟩ : Mirrors s g t g ∧ NoDearer s g t g :=
    mirrors_of_same rfl (fun c some => same c ▸ some) fun c v ok => member c ▸ ok
  obtain ⟨mirrors', cheap'⟩ : Mirrors t g s g ∧ NoDearer t g s g :=
    mirrors_of_same rfl (fun c some => same c ▸ some) fun c v ok => member c ▸ ok
  exact ExactCost.eq_of_not_lt (law.mono valid mirrors cheap cost cost')
    (law.mono (mirrors.valid valid) mirrors' cheap' cost' cost)

/-- Valid selections have finitely many costs. -/
theorem Metric.finite_costs [ExactCost α] (law : Metric metric) (g : EGraph α) :
    {a | ∃ s : Selection α, s.Valid g ∧ metric s g g.roots = .ok a}.Finite := by
  choose! choice valid cost using fun a (mem : ∃ s : Selection α, s.Valid g ∧
    metric s g g.roots = .ok a) => mem
  -- A valid selection chooses no more than it picks, and there are finitely many lists to pick.
  refine Set.Finite.of_injOn (f := fun a => (choice a).picks g)
    (t := {picked | picked ∈ g.nodes.keys.sublists}) ?_ ?_ ?_
  · intro a mem
    exact List.mem_sublists.2 List.filter_sublist
  · intro a mem b mem' same
    exact law.eq_of_choice? (valid a mem)
      (choice?_eq_of_picks (valid a mem).proper (valid b mem').proper same) (cost a mem) (cost b mem')
  · exact List.finite_toSet _

/-- Where a selection passes the check, one that passes is the cheapest. -/
theorem Metric.exists_least [ExactCost α] (law : Metric metric) {g : EGraph α}
    (some : ∃ s : Selection α, s.check g = .ok ()) : ∃ a, g.Least metric a := by
  have order : IsStrictOrder α (· < ·) :=
    { irrefl := OrderedCost.irrefl, trans := fun _ _ _ => OrderedCost.trans }
  obtain ⟨s, ok⟩ := some
  have valid := check_eq_ok_iff_valid.1 ok
  obtain ⟨a, cost⟩ := law.defined valid
  obtain ⟨⟨least, t, valid', cost'⟩, _, minimal⟩ :=
    (law.finite_costs g).wellFoundedOn (r := (· < ·)).has_min Set.univ ⟨⟨a, s, valid, cost⟩, trivial⟩
  refine ⟨least, ⟨t, check_eq_ok_iff_valid.2 valid', cost'⟩, ?_⟩
  intro u ok'
  have valid'' := check_eq_ok_iff_valid.1 ok'
  obtain ⟨b, cost''⟩ := law.defined valid''
  exact ⟨b, cost'', minimal ⟨b, u, valid'', cost''⟩ trivial⟩

/-- Where every selection has a mirror that is no dearer, the least cost of the mirrors is no higher. -/
theorem Metric.not_least_lt [ExactCost α] (law : Metric metric) {h : EGraph α} {a b : α}
    (least : g.Least metric a) (least' : h.Least metric b)
    (mirror : ∀ s : Selection α, ∃ t, Mirrors s g t h ∧ NoDearer s g t h) : ¬ a < b := by
  obtain ⟨s, ok, cost⟩ := least.attained
  obtain ⟨t, mirrors, cheap⟩ := mirror s
  have valid := check_eq_ok_iff_valid.1 ok
  obtain ⟨x, cost', notLess⟩ := least'.bound t (check_eq_ok_iff_valid.2 (mirrors.valid valid))
  exact ExactCost.not_lt_chain notLess (law.mono valid mirrors cheap cost cost')

/-- In a graph of one class, a valid selection chooses one node of it. -/
theorem Valid.exists_single (valid : s.Valid g) {c : ClassId}
    (one : ∀ id ∈ g.nodes.keys, id.owner = c) :
    ∃ id ∈ g.nodes.keys, ∀ d, s.choice? d = if d = c then some id else none := by
  have inside : ∀ d id, s.choice? d = some id → id ∈ g.nodes.keys ∧ d = c := by
    intro d id choice
    obtain ⟨node, stored, owner⟩ := valid.proper d id choice
    have known := EGraph.mem_keys_iff.2 ⟨node, stored⟩
    exact ⟨known, owner ▸ EGraph.owner_of_node? stored ▸ one id known⟩
  obtain ⟨r, root⟩ := List.exists_mem_of_ne_nil _ valid.rooted
  obtain ⟨id, choice⟩ := Option.isSome_iff_exists.1 (valid.complete r ⟨r, root, .refl⟩)
  obtain ⟨known, rfl⟩ := inside r id choice
  refine ⟨id, known, ?_⟩
  intro d
  split
  · rename_i same
    rw [same, choice]
  · rename_i other
    cases choice' : s.choice? d with
    | none => rfl
    | some id' => exact absurd (inside d id' choice').2 other

/-- In a graph of one class, the least cost is that of its cheapest node. -/
theorem Metric.least_of_single [ExactCost α] (law : Metric metric) {c : ClassId}
    (one : ∀ id ∈ g.nodes.keys, id.owner = c) {a : α}
    (attained : ∃ id, (choose ∅ c id).check g = .ok () ∧ metric (choose ∅ c id) g g.roots = .ok a)
    (bound : ∀ id ∈ g.nodes.keys, ∃ b, metric (choose ∅ c id) g g.roots = .ok b ∧ ¬ b < a) :
    g.Least metric a := by
  obtain ⟨id, ok, cost⟩ := attained
  refine ⟨⟨_, ok, cost⟩, ?_⟩
  intro s ok'
  have valid := check_eq_ok_iff_valid.1 ok'
  obtain ⟨x, cost'⟩ := law.defined valid
  obtain ⟨other, known, same⟩ := valid.exists_single one
  obtain ⟨b, cost'', notLess⟩ := bound other known
  have alike : ∀ d, s.choice? d = ((∅ : Selection α).choose c other).choice? d := by
    intro d
    rw [same, choice?_choose]
    rfl
  obtain rfl := law.eq_of_choice? valid alike cost' cost''
  exact ⟨x, cost', notLess⟩

end Selection

end Extraction
