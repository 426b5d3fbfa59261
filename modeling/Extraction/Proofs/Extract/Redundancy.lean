import Extraction.Proofs.Extract.Coverage
import Extraction.Proofs.Extract.Depth
import Extraction.Proofs.Graph.KeepFirst
import Extraction.Proofs.Selection.Redundancy

/-! Extraction with and without redundant nodes. The runs differ from the start, but what they cover is what is
realizable, and a node that is dropped has the children of one that is kept; so dropping redundant nodes leaves
what is covered as it is. It leaves the least depth as it is too, since it leaves to each selection another one
that is as deep. -/
namespace Extraction

variable {α : Type} [Cost α]

namespace EGraph

theorem classes_dropRedundant (g : EGraph α) : g.dropRedundant.classes = g.classes := by
  rw [g.classes_eq, ← g.draft.classes_dropRedundant]
  rfl

/-- A class is realized by the node that is kept where it was by one that is dropped. -/
theorem realizable_dropRedundant (g : EGraph α) : g.dropRedundant.Realizable = g.Realizable := by
  funext c
  apply propext
  constructor
  · intro realizable
    induction realizable with
    | node kept _ ih => exact .node (node?_of_dropRedundant kept) ih
  · intro realizable
    induction realizable with
    | node stored _ ih =>
      obtain ⟨kept, stored', same⟩ := exists_keeper stored
      obtain ⟨owner, children⟩ := Node.kind_eq_iff.1 same
      rw [← owner]
      exact .node stored' fun d child => ih d (children.mem_iff.1 child)

/-- There are no more classes than numbers to name them. -/
theorem length_classes_le (g : EGraph α) : g.classes.length ≤ UInt32.size := by
  have distinct : (g.classes.map fun c => c.value.toNat).Nodup := by
    refine g.nodup_classes.map fun c d same => ?_
    cases c
    cases d
    exact congrArg ClassId.mk (UInt32.toNat_inj.1 same)
  have inside : (g.classes.map fun c => c.value.toNat) ⊆ List.range UInt32.size := by
    intro n mem
    obtain ⟨c, _, rfl⟩ := List.mem_map.1 mem
    exact List.mem_range.2 c.value.toNat_lt_size
  have bound := (List.subperm_of_subset distinct inside).length_le
  rwa [List.length_map, List.length_range] at bound

end EGraph

namespace Settings

/-- What is covered, and what fails, is the same without redundant nodes. -/
theorem map_keys_dropRedundant [OrderedCost α] (settings : Settings) (g : EGraph α) (roots : List ClassId) :
    ((settings.untimed g.dropRedundant roots).map fun s => s.choices.keys) =
      (settings.untimed g roots).map fun s => s.choices.keys := by
  obtain ⟨_, plan, complete, untimed⟩ := settings.exists_complete (α := α)
  rw [untimed, untimed, ((complete _).coveredBy _ roots).map_keys, ((complete _).coveredBy _ roots).map_keys,
    g.classes_dropRedundant, g.realizable_dropRedundant]

/-- An extraction that fails has roots that cannot be covered. -/
theorem exists_uncoverable [OrderedCost α] {settings : Settings} {g : EGraph α} {roots : List ClassId}
    {e : ExtractError} (failed : settings.untimed g roots = .error e) :
    ∃ uncovered, e = .uncoverableRoots uncovered := by
  obtain ⟨_, plan, complete, untimed⟩ := settings.exists_complete (α := α)
  rw [untimed] at failed
  have covered := (complete g).coveredBy (settings.timeoutSecs.getD 0) roots
  by_cases all : ∀ c ∈ roots, g.Realizable c
  · obtain ⟨s, ok⟩ := covered.ok_iff.2 all
    cases failed.symm.trans ok
  · exact ⟨_, Except.error.inj (failed.symm.trans (covered.error all))⟩

/-- A selection of extraction by depth has a depth that no selection goes below. -/
theorem exists_least_depth {settings : Settings} (astDepth : settings.extractor = .astDepth)
    {g : EGraph Float} {roots : List ClassId} {s : Selection Float} (ok : settings.untimed g roots = .ok s) :
    ∃ least, s.depth g roots = .ok least ∧
      ∀ (other : Selection Float) d, other.depth g roots = .ok d → least ≤ d := by
  have few : g.classes.length < 2 ^ 53 := Nat.lt_of_le_of_lt g.length_classes_le (by decide)
  unfold untimed run at ok
  rw [astDepth] at ok
  obtain ⟨rfl, covered⟩ := Plan.selection_of_extract ok
  exact Plan.exists_least_depth Double.counts few covered

/-- Extraction by depth is as deep without redundant nodes as with them. -/
theorem exists_depth_dropRedundant {settings : Settings} (astDepth : settings.extractor = .astDepth)
    {g : EGraph Float} {roots : List ClassId} {s t : Selection Float}
    (ok : settings.untimed g roots = .ok s) (ok' : settings.untimed g.dropRedundant roots = .ok t) :
    ∃ d, s.depth g roots = .ok d ∧ t.depth g.dropRedundant roots = .ok d := by
  obtain ⟨d, depth, least⟩ := exists_least_depth astDepth ok
  obtain ⟨d', depth', least'⟩ := exists_least_depth astDepth ok'
  -- Each selection has its counterpart in the other graph, which is as deep.
  have after := (s.mirrors_keepers g).depth_eq (founded_of_untimed ok).1.proper depth
  have before := (t.mirrors_of_dropRedundant g).1.depth_eq (founded_of_untimed ok').1.proper depth'
  obtain rfl := Nat.le_antisymm (least t d' before) (least' _ d after)
  exact ⟨d, depth, depth'⟩

/-- Whatever the extractor and its settings, without a time limit extraction covers the same classes once redundant
nodes are removed from a draft that seals, or it fails on account of the same roots, and for no other reason. Where
it goes by depth, the depth over the roots is the same as well. -/
theorem untimed_removeRedundant (settings : Settings) (d : Draft Float) (g : EGraph Float)
    (sealed : d.toGraph = .ok g) (roots : List ClassId) :
    ∃ removed kept h, d.removeRedundant = .ok (removed, kept) ∧ kept.toGraph = .ok h ∧
      ((settings.untimed h roots).map fun s => s.choices.keys) =
        ((settings.untimed g roots).map fun s => s.choices.keys) ∧
      (∀ e, settings.untimed g roots = .error e → ∃ uncovered, e = .uncoverableRoots uncovered) ∧
      (settings.extractor = .astDepth → ∀ s t, settings.untimed g roots = .ok s →
        settings.untimed h roots = .ok t →
        ∃ depth, s.depth g roots = .ok depth ∧ t.depth h roots = .ok depth) := by
  obtain rfl := Draft.toGraph_eq_ok_iff.1 sealed
  exact ⟨_, _, g.dropRedundant, g.draft.removeRedundant_eq, Draft.toGraph_eq_ok_iff.2 rfl,
    settings.map_keys_dropRedundant g roots, fun _ => exists_uncoverable,
    fun astDepth _ _ => exists_depth_dropRedundant astDepth⟩

section Twins
set_option maxRecDepth 100000

/-- A draft with two pairs of nodes that stand for one another. Its class 3 stands only above itself. -/
def twinDraft : Draft Float :=
  .ofNodes [((0 : UInt32), [(1 : UInt32), 2], (3.0 : Float)), (0, [2, 1], 1), (1, [2], 1), (2, [], 2), (2, [], 1),
    (3, [3, 0], 1)] [0]

def twinGraph : EGraph Float := twinDraft.toGraph.toOption.get (by decide +kernel)

def byDepth : Settings := { extractor := .astDepth }

def twinSelection : Selection Float := (byDepth.untimed twinGraph [⟨0⟩]).toOption.get (by decide +kernel)

theorem twinDraft_removeRedundant :
    ∃ kept h t, twinDraft.removeRedundant = .ok (2, kept) ∧ kept.toGraph = .ok h ∧
      byDepth.untimed h [⟨0⟩] = .ok t ∧ t.choices.keys = [⟨0⟩, ⟨1⟩, ⟨2⟩] ∧ t.depth h [⟨0⟩] = .ok 3 := by
  obtain ⟨removed, kept, h, ok, sealed, keys, _, depths⟩ :=
    untimed_removeRedundant byDepth twinDraft twinGraph (ok_get_toOption _) [⟨0⟩]
  have count : (twinDraft.removeRedundant.map Prod.fst) = .ok 2 := by decide +kernel
  rw [ok] at count
  obtain rfl := Except.ok.inj count
  have before : byDepth.untimed twinGraph [⟨0⟩] = .ok twinSelection := ok_get_toOption _
  have chosen : twinSelection.choices.keys = [⟨0⟩, ⟨1⟩, ⟨2⟩] := by decide +kernel
  have depth : twinSelection.depth twinGraph [⟨0⟩] = .ok 3 := by decide +kernel
  rw [before] at keys
  obtain ⟨t, ok', keys'⟩ := exists_of_map_eq_ok keys
  obtain ⟨d, first, second⟩ := depths rfl _ t before ok'
  obtain rfl := Except.ok.inj (first.symm.trans depth)
  exact ⟨kept, h, t, ok, sealed, ok', keys'.trans chosen, second⟩

end Twins

end Settings

end Extraction
