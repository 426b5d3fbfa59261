import Extraction.Proofs.Double.Laws
import Extraction.Proofs.Extract.Outcome
import Extraction.Proofs.Relaxation.Rank

/-! A selection by tree cost or by depth has no cycles. Totals only fall, so a class never has a lower one
than a class that it uses; where they are equal, the class was the later one to be improved. -/
namespace Extraction
open Std Relation

variable {α β : Type} [Cost α]

section Measured
variable [OrderedCost α]

/-- No class leads back to itself along the choices of a run by a measure. -/
theorem Plan.not_transGen_uses {measure : Node α → List α → α} (superior : Superior measure)
    (g : EGraph α) (c : ClassId) :
    ¬ TransGen (((byMeasure measure).wholeRun g).selection g |>.Uses g) c c := by
  have reached := (byMeasure measure).reached_wholeRun g
  have founded := reached.founded careful_byMeasure
  obtain ⟨stamp, _, _, ranked⟩ := reached.exists_ranked superior
  generalize (byMeasure measure).wholeRun g = r at *
  have nonnegative : ∀ {c entry}, TreeMap.get? r.table c = some entry →
      Cost.Nonnegative entry.total := fun held =>
    reached.nonnegative superior (Table.total?_of_get? held)
  have descends : ∀ {d}, TransGen ((r.selection g).Uses g) c d → ∃ entry below,
      TreeMap.get? r.table c = some entry ∧ TreeMap.get? r.table d = some below ∧
      RanksBelow below.total entry.total (stamp d) (stamp c) := by
    intro d path
    induction path with
    | single use =>
      obtain ⟨entry, node, below, held, stored, child, held'⟩ := founded.uses use
      exact ⟨entry, below, held, held', ranked _ _ _ _ _ held stored child held'⟩
    | tail _ use ih =>
      obtain ⟨entry, middle, held, held', ranks⟩ := ih
      obtain ⟨middle', node, below, again, stored, child, held''⟩ := founded.uses use
      obtain rfl := Option.some.inj (held'.symm.trans again)
      have next := ranked _ _ _ _ _ again stored child held''
      exact ⟨entry, below, held, held'', next.trans (nonnegative held'') (nonnegative held')
        (nonnegative held) ranks⟩
  intro round
  obtain ⟨entry, below, held, held', ranks⟩ := descends round
  obtain rfl := Option.some.inj (held.symm.trans held')
  exact RanksBelow.irrefl ranks

/-- The walk from covered roots along the choices of a run by a measure ends well. -/
theorem Plan.exists_postOrder {measure : Node α → List α → α} (superior : Superior measure)
    {g : EGraph α} {roots : List ClassId}
    (covered : ∀ c ∈ roots, ((byMeasure measure).wholeRun g).table.Covers c) :
    ∃ visits, ((((byMeasure measure).wholeRun g).selection g).postOrder g roots).result =
      .ok visits := by
  have founded := ((byMeasure measure).reached_wholeRun g).founded careful_byMeasure
  have chosen : ∀ c ∈ roots, ((((byMeasure measure).wholeRun g).selection g).choice? c).isSome :=
    fun c root => choice?_of_covers founded (covered c root)
  exact (Selection.postOrder_ok_iff _ g roots).2 fun c below =>
    ⟨founded.selection.exists_chosenMember (founded.selection.chosen_below chosen below),
      not_transGen_uses superior g c⟩

/-- A selection by tree cost or by depth passes the check, and the choices of all covered classes are free
of cycles. -/
theorem Settings.check_measured (settings : Settings)
    (measured : settings.extractor = .bottomUp ∨ settings.extractor = .astDepth) (g : EGraph α)
    (rooted : g.roots ≠ []) (s : Selection α) (ok : settings.untimed g g.roots = .ok s) :
    s.check g = .ok () ∧ ∀ c, ¬ TransGen (s.Uses g) c c := by
  have acyclic : ∀ c, ¬ TransGen (s.Uses g) c c := by
    unfold untimed run at ok
    obtain extractor | extractor := measured <;> rw [extractor] at ok
    · obtain ⟨rfl, _⟩ := Plan.selection_of_extract ok
      exact Plan.not_transGen_uses superior_treeMeasure g
    · obtain ⟨rfl, _⟩ := Plan.selection_of_extract ok
      exact Plan.not_transGen_uses superior_depthMeasure g
  obtain ⟨founded, chosen⟩ := founded_of_untimed ok
  exact ⟨(founded.check_eq_ok_iff rooted chosen).2 fun c _ => acyclic c, acyclic⟩

end Measured

section Free
set_option maxRecDepth 100000

/-- A graph whose classes 0 and 1 stand above each other for nothing, and above a leaf for nothing. -/
def freeGraph : EGraph Float :=
  (Draft.ofNodes [((0 : UInt32), [(1 : UInt32)], (0.0 : Float)), (1, [0], 0), (0, [2], 0), (2, [], 0)]
    [1]).toGraph.toOption.get (by decide +kernel)

def freeSelection (settings : Settings)
    (ok : (settings.untimed freeGraph freeGraph.roots).toOption.isSome) : Selection Float :=
  (settings.untimed freeGraph freeGraph.roots).toOption.get ok

theorem freeSelection_acyclic :
    (freeSelection { extractor := .bottomUp } (by decide +kernel)).check freeGraph = .ok () ∧
      ∀ c, ¬ TransGen ((freeSelection { extractor := .bottomUp } (by decide +kernel)).Uses freeGraph)
        c c :=
  Settings.check_measured { extractor := .bottomUp } (.inl rfl) freeGraph (by decide +kernel) _
    (ok_get_toOption _)

end Free

end Extraction
