/-! The arithmetic that costs need. Extraction only adds costs, compares them strictly and scales
them, so every algorithm here is written over `Cost`; the program runs it on doubles. -/
namespace Extraction

class Cost (α : Type) extends Add α, Mul α, LT α, Zero α, One α where
  decidableLT : DecidableLT α
  /-- What an empty sum comes to. -/
  emptySum : α
  isNaN : α → Bool
  isFinite : α → Bool

namespace Cost
variable {α : Type} [Cost α]

instance : DecidableLT α := decidableLT

def sum (costs : List α) : α := costs.foldl (· + ·) emptySum

/-- A candidate replaces the best so far only if it is strictly cheaper. -/
def improves (candidate : α) : Option α → Bool
  | none => true
  | some best => candidate < best

theorem improves_some {a b : α} : improves a (some b) = true ↔ a < b := by simp [improves]

theorem not_improves_some {a b : α} : improves a (some b) = false ↔ ¬ a < b := by simp [improves]

/-- What does not improve on a total is bounded by it. -/
theorem not_improves_iff {a : α} {best : Option α} :
    improves a best = false ↔ ∃ b, best = some b ∧ ¬ a < b := by
  cases best with
  | none => simp [improves]
  | some b => simp [improves]

end Cost

/-- Sums of doubles start at negative zero, the one double that changes no other by addition. -/
instance : Cost Float where
  zero := 0.0
  one := 1.0
  decidableLT := inferInstance
  emptySum := -0.0
  isNaN := Float.isNaN
  isFinite := Float.isFinite

end Extraction
