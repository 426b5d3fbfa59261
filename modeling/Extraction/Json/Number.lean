import Extraction.Decimal.Numeral

/-! How the numbers of a document become words and doubles. A word is written in plain digits. For a
double the digits are gathered in a word as long as they fit, and the result is scaled by one power of
ten, so a long numeral need not become the double nearest to it. -/
namespace Extraction.Json

/-- The parts of a number: its sign, the digits before and after the point, and the exponent with its
sign. -/
structure NumberParts where
  negative : Bool
  whole : List Char
  part : List Char
  power : Option (Bool × List Char)

/-- The digits after a point, none if there is no point. A point alone is refused. -/
def scanPart? : List Char → Option (List Char × List Char)
  | '.' :: rest =>
    let (part, rest) := rest.span Char.isDigit
    if part.isEmpty then none else some (part, rest)
  | rest => some ([], rest)

/-- The exponent that is the whole text, if there is text. -/
def readPower? : List Char → Option (Option (Bool × List Char))
  | [] => some none
  | c :: rest =>
    let (below, digits) := Numeral.scanSign rest
    if (c = 'e' || c = 'E') && !digits.isEmpty && digits.all Char.isDigit then
      some (some (below, digits))
    else none

/-- The parts of a text that is a number: it has no plus sign and no needless zero in front. -/
def numberParts? (lexeme : List Char) : Option NumberParts := do
  let (negative, rest) :=
    match lexeme with
    | '-' :: rest => (true, rest)
    | rest => (false, rest)
  let (whole, rest) := rest.span Char.isDigit
  if whole.isEmpty || whole.head? = some '0' && 1 < whole.length then none
  else
    let (part, rest) ← scanPart? rest
    let power ← readPower? rest
    return ⟨negative, whole, part, power⟩

/-- The value of a number written in plain digits, if it fits in 64 bits. -/
def word? (lexeme : String) : Option Nat :=
  let digits := lexeme.toList
  let value := Numeral.digitsValue digits
  if !digits.isEmpty && digits.all Char.isDigit && value < UInt64.size then some value else none

/-- Gathers digits as long as the result fits in 64 bits, and returns the digits left. -/
def gather (acc : Nat) : List Char → Nat × List Char
  | [] => (acc, [])
  | c :: rest =>
    let next := 10 * acc + (c.toNat - '0'.toNat)
    if next < UInt64.size then gather next rest else (acc, c :: rest)

def powerOfTen (n : Nat) : Float := nearestDouble (Nat.pow 10 n) 1

def largestPower : Nat := 308

/-- Divides by `10 ^ n`, in several steps where that is no double. -/
def scaleDown (x : Float) (n : Nat) : Float :=
  if n ≤ largestPower then x / powerOfTen n
  else if x == 0.0 then x
  else scaleDown (x / powerOfTen largestPower) (n - largestPower)
termination_by n
decreasing_by
  have : 0 < largestPower := by decide
  omega

/-- The gathered digits times a power of ten. A number beyond the doubles is refused. -/
def scale? (digits : Nat) (exponent : Int) : Option Float :=
  let x := nearestDouble digits 1
  if exponent < 0 then some (scaleDown x exponent.natAbs)
  else if digits = 0 then some x
  else if (largestPower : Int) < exponent then none
  else
    let scaled := x * powerOfTen exponent.toNat
    if scaled.isInf then none else some scaled

/-- The largest exponent that is told from larger ones. -/
def exponentLimit : Int := 0x7fffffff

def magnitude? (n : NumberParts) : Option Float :=
  let (digits, excess) := gather 0 n.whole
  let (digits, unused) := gather digits n.part
  let start : Int := (excess.length : Int) - (n.part.length - unused.length : Nat)
  match n.power with
  | none => scale? digits start
  | some (below, power) =>
    let shift : Int := Numeral.digitsValue power
    if exponentLimit < shift then
      if digits ≠ 0 ∧ !below then none else some 0.0
    else
      let exponent := if below then start - shift else start + shift
      scale? digits (max (-exponentLimit - 1) (min exponentLimit exponent))

def double? (lexeme : String) : Option Float := do
  let n ← numberParts? lexeme.toList
  let magnitude ← magnitude? n
  return Numeral.signed n.negative magnitude

end Extraction.Json
