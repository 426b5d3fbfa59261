/-! The exact value of a double. A finite double is a sign and a magnitude `mantissa * 2 ^ exponent`, and
the nearest double to a quotient of natural numbers is found in exact arithmetic, a half going to the
even neighbour. -/
namespace Extraction

/-- The magnitude `mantissa * 2 ^ exponent`. -/
structure Binary where
  mantissa : Nat
  exponent : Int
  deriving DecidableEq, Repr

namespace Binary

/-- The bit that every mantissa has except the smallest: `2 ^ 52`. -/
def hiddenBit : Nat := 0x10000000000000

/-- The magnitude whose double has the bits `bits`, the sign bit left out of account. -/
def ofBits (bits : Nat) : Binary :=
  let fraction : Nat := bits % hiddenBit
  let biased : Nat := bits / hiddenBit % 0x800
  if biased = 0 then ⟨fraction, -1074⟩ else ⟨hiddenBit + fraction, (biased : Int) - 1075⟩

def ofDouble (x : Float) : Binary := ofBits x.toBits.toNat

def fraction (b : Binary) : Nat × Nat :=
  if 0 ≤ b.exponent then (b.mantissa * Nat.pow 2 b.exponent.toNat, 1)
  else (b.mantissa, Nat.pow 2 (-b.exponent).toNat)

/-- The quotient rounded to a natural number, a half going to the even neighbour. -/
def roundHalfEven (num den : Nat) : Nat :=
  let whole := num / den
  let twice := 2 * (num % den)
  if twice < den then whole
  else if den < twice then whole + 1
  else whole + whole % 2

/-- The exponent of the last bit that a double near `num / den` can hold. -/
def lastBit (num den : Nat) : Int :=
  let guess : Int := (num.log2 : Int) - den.log2 - 52
  let below := if 0 ≤ guess then num < den * Nat.pow 2 guess.toNat * hiddenBit
    else num * Nat.pow 2 (-guess).toNat < den * hiddenBit
  max (-1074) (if below then guess - 1 else guess)

def infinityBits : Nat := 0x7ff * hiddenBit

/-- The bits of the double nearest to `num / den`, infinity where no finite double is near. -/
def nearestBits (num den : Nat) : Nat :=
  if num = 0 then 0
  else
    let e := lastBit num den
    let m := if 0 ≤ e then roundHalfEven num (den * Nat.pow 2 e.toNat)
      else roundHalfEven (num * Nat.pow 2 (-e).toNat) den
    min infinityBits ((e + 1074).toNat * hiddenBit + m)

end Binary

def nearestDouble (num den : Nat) : Float := Float.ofBits (UInt64.ofNat (Binary.nearestBits num den))

/-- Whether the sign bit is set, as it is for negative zero. -/
def signBit (x : Float) : Bool := 0x8000000000000000 ≤ x.toBits.toNat

end Extraction
