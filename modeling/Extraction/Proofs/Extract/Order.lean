import Extraction.Proofs.Cost.Rational
import Extraction.Proofs.Extract.Passes
import Extraction.Proofs.Relaxation.Unrivalled

/-! Greedy extraction in different orders. Where a selection is unrivalled for every class below the roots, the
extraction one node at a time and that in rounds of any size both come to it, and so to the same cost. Where the
cheapest realization of a class is not made of the cheapest ones of the classes below, the two may come to
different costs: which bill a class ends up with depends on when the classes below it improve. -/
namespace Extraction
open Std

variable {α : Type} [Cost α]

section Exact
variable [ExactCost α]

/-- An extraction by bills, in batches of any size, comes to the selection that is unrivalled below the roots. -/
theorem Plan.extract_of_unrivalled (prune : Bool) {passes : Nat} (begins : 0 < passes) {pace : Pace}
    (size : 0 < pace.size) (limit : Nat) {g : EGraph α} {roots : List ClassId} {s : Selection α}
    (proper : s.Proper g) (acyclic : s.AcyclicBelow g roots)
    (unrivalled : ∀ c, s.Below g roots c → s.Unrivalled g c) : ∃ t,
      (Id.run ((byBills prune passes pace).extract limit g roots fun _ => pure false)).selection = .ok t ∧
        ∀ c, s.Below g roots c → t.choice? c = s.choice? c := by
  have ended := over_byBills prune passes size g
  have reached := reached_wholeRun (byBills prune passes pace) g
  have matched := fun c => reached.matched ended begins proper acyclic unrivalled (c := c)
  have covered : ((byBills prune passes pace).wholeRun g).uncovered roots = [] := by
    refine Run.uncovered_eq_nil.2 fun c root => ?_
    obtain ⟨entry, _, held, _⟩ := matched c ⟨c, root, .refl⟩
    exact Table.covers_iff.2 ⟨entry, held⟩
  refine ⟨_, (extract_eq _ limit g roots ended).trans (by rw [covered]; rfl), ?_⟩
  exact fun c below => reached.choice?_of_matched (unrivalled c below) (matched c below)

/-- Whatever the settings, a greedy extraction without a time limit comes to the selection that is unrivalled
below the roots. -/
theorem Settings.untimed_of_unrivalled (settings : Settings)
    (greedy : settings.extractor = .greedyDag ∨ settings.extractor = .parallelGreedyDag) {g : EGraph α}
    {roots : List ClassId} {s : Selection α} (proper : s.Proper g) (acyclic : s.AcyclicBelow g roots)
    (unrivalled : ∀ c, s.Below g roots c → s.Unrivalled g c) : ∃ t,
      settings.untimed g roots = .ok t ∧ ∀ c, s.Below g roots c → t.choice? c = s.choice? c := by
  have begins : 0 < max settings.passes 1 := by omega
  have one : 0 < Pace.single.size := Nat.one_pos
  unfold untimed run
  obtain extractor | extractor := greedy
  · rw [extractor]
    exact Plan.extract_of_unrivalled _ begins one _ proper acyclic unrivalled
  · rw [extractor]
    exact Plan.extract_of_unrivalled _ begins (Pace.size_rounds_pos _) _ proper acyclic unrivalled

/-- If a selection goes round nowhere below the roots and is unrivalled for every class there, then greedy
extraction without a time limit comes to its choices and to its dag cost, one node at a time and in rounds of
any size, in any number of passes, with the shortcut for single children and without. -/
theorem Settings.dagCost_of_unrivalled (g : EGraph α) (roots : List ClassId)
    (s : Selection α) (proper : s.Proper g) (acyclic : s.AcyclicBelow g roots)
    (unrivalled : ∀ c, s.Below g roots c → s.Unrivalled g c) :
    ∃ cost, s.dagCost g roots = .ok cost ∧ ∀ settings : Settings,
      settings.extractor = .greedyDag ∨ settings.extractor = .parallelGreedyDag →
        ∃ t, settings.untimed g roots = .ok t ∧ t.dagCost g roots = .ok cost ∧
          ∀ c, s.Below g roots c → t.choice? c = s.choice? c := by
  obtain ⟨t, ok, same⟩ := untimed_of_unrivalled {} (.inl rfl) proper acyclic unrivalled
  obtain ⟨founded, rooted⟩ := founded_of_untimed ok
  obtain ⟨visits, walk⟩ := founded.exists_survey rooted
  have spent := Selection.dagCost_eq_ok.2 ⟨visits, walk, rfl⟩
  rw [← Selection.dagCost_congr fun c below => (same c below).symm] at spent
  refine ⟨_, spent, ?_⟩
  intro settings greedy
  obtain ⟨t', ok', same'⟩ := untimed_of_unrivalled settings greedy proper acyclic unrivalled
  refine ⟨t', ok', ?_, same'⟩
  rwa [← Selection.dagCost_congr fun c below => (same' c below).symm]

end Exact

section Shared
set_option maxRecDepth 100000

/-- A graph whose root is cheapest above classes 1 and 2, which share class 3. The root has a node above class 1
alone and class 1 a leaf, and both are dearer. -/
def sharedGraph : EGraph ℚ≥0 :=
  (Draft.ofNodes [((1 : UInt32), ([] : List UInt32), .divNat 6 1), (3, [], .divNat 4 1), (1, [3], 1),
    (2, [3], 1), (0, [1, 2], 0), (0, [1], .divNat 2 1)] [0]).toGraph.toOption.get (by decide +kernel)

def sharedSelection : Selection ℚ≥0 :=
  .ofPicks [⟨⟨0⟩, 0⟩, ⟨⟨1⟩, 1⟩, ⟨⟨2⟩, 0⟩, ⟨⟨3⟩, 0⟩]

theorem sharedSelection_valid : sharedSelection.Valid sharedGraph :=
  Selection.check_eq_ok_iff_valid.1 (by decide +kernel)

/-- Below each class, all other choices cost more. -/
theorem sharedSelection_unrivalled {c : ClassId} (known : c ∈ sharedGraph.classes) :
    sharedSelection.Unrivalled sharedGraph c := by
  have all : ∀ c ∈ sharedGraph.classes, (sharedSelection.dagCost sharedGraph [c]).toOption.isSome ∧
      ∀ ids ∈ sharedGraph.nodes.keys.sublists, ∀ visits ∈
        ((Selection.ofPicks ids : Selection ℚ≥0).survey sharedGraph [c]).result.toOption,
          ∀ least ∈ (sharedSelection.dagCost sharedGraph [c]).toOption,
            least < Cost.sum (visits.map fun v => v.node.cost) ∨
              ∀ v ∈ visits, sharedSelection.choice? v.eclass = some v.id := by
    decide +kernel
  obtain ⟨defined, rivals⟩ := all c known
  exact Selection.unrivalled_of_picks (ok_get_toOption defined) fun ids listed visits walk =>
    rivals ids listed visits walk _ (Option.get_mem defined)

/-- One node at a time and two at a time come to the cost of the selection. -/
theorem sharedGraph_costs :
    (∃ t, ({} : Settings).untimed sharedGraph sharedGraph.roots = .ok t ∧
        t.dagCost sharedGraph sharedGraph.roots = .ok 6) ∧
      ∃ t, inPairs.untimed sharedGraph sharedGraph.roots = .ok t ∧
        t.dagCost sharedGraph sharedGraph.roots = .ok 6 := by
  have six : sharedSelection.dagCost sharedGraph sharedGraph.roots = .ok 6 := by decide +kernel
  obtain ⟨cost, spent, all⟩ := Settings.dagCost_of_unrivalled sharedGraph sharedGraph.roots
    sharedSelection sharedSelection_valid.proper sharedSelection_valid.acyclic
    fun c below => sharedSelection_unrivalled (below.mem_classes sharedGraph.rootsPresent)
  obtain rfl := Except.ok.inj (six.symm.trans spent)
  obtain ⟨t, ok, cost, _⟩ := all {} (.inl rfl)
  obtain ⟨t', ok', cost', _⟩ := all inPairs (.inr rfl)
  exact ⟨⟨t, ok, cost⟩, t', ok', cost'⟩

end Shared

section Contested
set_option maxRecDepth 100000

/-- A graph whose root is cheapest above class 1 alone, once class 1 has its cheaper node above class 2. Before
that it is cheaper above classes 1 and 3, since class 1 uses class 3 as well. -/
def contestedGraph : EGraph ℚ≥0 :=
  (Draft.ofNodes [((3 : UInt32), ([] : List UInt32), .divNat 5 1), (0, [1], .divNat 10 1),
    (2, [], .divNat 10 1), (1, [3], .divNat 8 1), (0, [3, 1], .divNat 8 1), (1, [2], .divNat 2 1)]
      [0]).toGraph.toOption.get (by decide +kernel)

def contestedSelection : Selection ℚ≥0 :=
  (({} : Settings).untimed contestedGraph contestedGraph.roots).toOption.get (by decide +kernel)

def contestedInRounds : Selection ℚ≥0 :=
  (({ extractor := .parallelGreedyDag } : Settings).untimed contestedGraph
    contestedGraph.roots).toOption.get (by decide +kernel)

/-- One node at a time, the root is billed at 21 while class 1 uses class 3. When class 1 has improved, the
other node of the root comes to 22 and does not improve on that, although the choice comes to 25 by then. In
rounds, class 1 has its cheaper node at once. -/
theorem contestedGraph_costs :
    contestedSelection.choice? ⟨0⟩ = some ⟨⟨0⟩, 1⟩ ∧ contestedInRounds.choice? ⟨0⟩ = some ⟨⟨0⟩, 0⟩ ∧
      contestedSelection.candidates.get? ⟨⟨0⟩, 1⟩ = some (some 21) ∧
      contestedSelection.dagCost contestedGraph contestedGraph.roots = .ok 25 ∧
      contestedInRounds.dagCost contestedGraph contestedGraph.roots = .ok 22 ∧ (22 : ℚ≥0) < 25 := by
  decide +kernel

end Contested

end Extraction
