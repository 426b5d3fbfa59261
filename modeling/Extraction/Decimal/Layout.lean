import Extraction.Decimal.Shortest

/-! How the shortest digits of a double are laid out as text. The three forms in use differ in where they
go over to an exponent, in the mark of a whole number and in the sign of an exponent. -/
namespace Extraction

/-- The decisions of one written form of doubles. -/
structure Layout where
  tie : Tie
  /-- Whether a number whose leading digit stands for this power of ten is written without exponent. -/
  positional : Int → Bool
  /-- Follows the digits of a whole number written without exponent. -/
  wholeMark : String
  /-- Precedes an exponent that is not negative. -/
  exponentSign : String
  nan : String
  infinity : String

namespace Layout

/-- Plain digits at every size, as in messages and logs. -/
def plain : Layout := ⟨.upward, fun _ => true, "", "", "NaN", "inf"⟩

/-- The form of JSON documents: marked as not whole, with an exponent far from one. -/
def document : Layout :=
  ⟨.toEven, fun leading => -5 ≤ leading && leading ≤ 15, ".0", "+", "null", "null"⟩

def cell : Layout :=
  ⟨.toEven, fun leading => -5 ≤ leading && leading ≤ 15, ".0", "", "NaN", "inf"⟩

def digitText (n : Nat) : List Char := Nat.toDigits 10 n

/-- The digits of `d` with a point, without exponent. -/
def positionalText (layout : Layout) (d : Decimal) : List Char :=
  let text := digitText d.digits
  if 0 ≤ d.exponent then
    text ++ List.replicate d.exponent.toNat '0' ++ layout.wholeMark.toList
  else
    let places := (-d.exponent).toNat
    let padded := List.replicate (places + 1 - text.length) '0' ++ text
    let whole := padded.length - places
    padded.take whole ++ '.' :: padded.drop whole

/-- The digits of `d` with a point after the first, and the power of ten of the first. -/
def exponentText (layout : Layout) (leading : Int) (d : Decimal) : List Char :=
  let mantissa :=
    match digitText d.digits with
    | first :: second :: rest => first :: '.' :: second :: rest
    | digits => digits
  let sign := if leading < 0 then ['-'] else layout.exponentSign.toList
  mantissa ++ 'e' :: sign ++ digitText leading.natAbs

def magnitudeText (layout : Layout) (d : Decimal) : List Char :=
  let leading := d.exponent + (digitText d.digits).length - 1
  if layout.positional leading then layout.positionalText d else layout.exponentText leading d

def render (layout : Layout) (x : Float) : String :=
  let sign := if signBit x then "-" else ""
  if x.isNaN then layout.nan
  else if x.isInf then sign ++ layout.infinity
  else
    sign ++ String.ofList (layout.magnitudeText ((Binary.ofDouble x).shortest layout.tie))

end Layout

end Extraction
