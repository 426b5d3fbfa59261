import Extraction.Decimal.Binary

/-! The shortest decimal that reads back as a given double. The reals that round to a double form an
interval. On the grid of multiples of a power of ten, one of the two neighbours of the double lies in it
if any point does, so the coarsest grid with such a neighbour gives the fewest digits; of two
neighbours in the interval the nearer is taken. -/
namespace Extraction

/-- The number `digits * 10 ^ exponent`. -/
structure Decimal where
  digits : Nat
  exponent : Int
  deriving DecidableEq, Repr

/-- What is taken where two decimals of the same length are equally near. -/
inductive Tie where
  | upward
  | toEven
  deriving DecidableEq, Repr

namespace Decimal

def fraction (d : Decimal) : Nat × Nat :=
  if 0 ≤ d.exponent then (d.digits * Nat.pow 10 d.exponent.toNat, 1)
  else (d.digits, Nat.pow 10 (-d.exponent).toNat)

end Decimal

namespace Binary

/-- Quarters of the last place from a magnitude down to the end of its interval. Below a power of two
doubles lie twice as close. -/
def quartersBelow (b : Binary) : Nat :=
  if b.mantissa = hiddenBit ∧ -1074 < b.exponent then 1 else 2

/-- A neighbour of `b` among the multiples of `10 ^ k` that rounds to `b`. -/
def neighbour? (tie : Tie) (b : Binary) (k : Int) : Option Nat :=
  let (unit, scale) := fraction ⟨1, b.exponent - 2⟩
  let num := if 0 ≤ k then unit else unit * Nat.pow 10 (-k).toNat
  let den := if 0 ≤ k then scale * Nat.pow 10 k.toNat else scale
  let value := 4 * b.mantissa * num
  let low := (4 * b.mantissa - b.quartersBelow) * num
  let high := (4 * b.mantissa + 2) * num
  let closed := b.mantissa % 2 = 0
  let below := value / den
  let above := below + 1
  let belowFits := low < below * den ∨ closed ∧ low = below * den
  let aboveFits := above * den < high ∨ closed ∧ above * den = high
  if belowFits ∧ aboveFits then
    let down := value - below * den
    let up := above * den - value
    if down < up then some below
    else if up < down then some above
    else
      match tie with
      | .upward => some above
      | .toEven => some (below + below % 2)
  else if belowFits then some below
  else if aboveFits then some above
  else none

/-- A power of ten above the magnitude, at most two places. -/
def ceiling (b : Binary) : Int := ((b.mantissa.log2 + 1 : Nat) + b.exponent) * 30103 / 100000 + 1

/-- The shortest decimal that reads back as the magnitude `b`. -/
def shortest (tie : Tie) (b : Binary) : Decimal :=
  if b.mantissa = 0 then ⟨0, 0⟩
  else
    let found := (List.range 22).findSome? fun (place : Nat) =>
      let k := b.ceiling - place
      (b.neighbour? tie k).map (Decimal.mk · k)
    found.getD ⟨0, 0⟩

end Binary

end Extraction
