import Extraction.Decimal.Shortest

/-! Reading doubles written in decimal. A numeral is digits with an optional point and an optional
exponent, or the name of a value that is no number; it stands for the double nearest to it. -/
namespace Extraction

namespace Decimal

/-- The double nearest to the number. Far outside the range of doubles the digits decide nothing. -/
def toDouble (d : Decimal) : Float :=
  let leading := d.exponent + (Nat.toDigits 10 d.digits).length
  if d.digits = 0 ∨ leading < -330 then 0.0
  else if 310 < leading then Float.ofBits 0x7ff0000000000000
  else nearestDouble d.fraction.1 d.fraction.2

end Decimal

inductive Numeral where
  | finite (negative : Bool) (magnitude : Decimal)
  | infinite (negative : Bool)
  | nan
  deriving DecidableEq, Repr

namespace Numeral

def signed (negative : Bool) (x : Float) : Float := if negative then -x else x

def value : Numeral → Float
  | finite negative magnitude => signed negative magnitude.toDouble
  | infinite negative => signed negative (Float.ofBits 0x7ff0000000000000)
  | nan => Float.ofBits 0x7ff8000000000000

def digitsValue (digits : List Char) : Nat :=
  digits.foldl (fun acc c => 10 * acc + (c.toNat - '0'.toNat)) 0

/-- An optional sign: whether it is a minus, and what follows. -/
def scanSign : List Char → Bool × List Char
  | '-' :: rest => (true, rest)
  | '+' :: rest => (false, rest)
  | rest => (false, rest)

/-- An optional exponent after `digits * 10 ^ exponent`. The letter alone is no exponent. -/
def scanExponent (digits : Nat) (exponent : Int) : List Char → Option (Decimal × List Char)
  | [] => some (⟨digits, exponent⟩, [])
  | c :: rest =>
    if c = 'e' ∨ c = 'E' then
      let (negative, rest) := scanSign rest
      let (power, rest) := rest.span Char.isDigit
      if power.isEmpty then none
      else
        let shift : Int := digitsValue power
        some (⟨digits, exponent + if negative then -shift else shift⟩, rest)
    else some (⟨digits, exponent⟩, c :: rest)

/-- Digits with an optional point, at least one digit on either side of it, and an optional exponent. -/
def scanMagnitude (text : List Char) : Option (Decimal × List Char) :=
  let (whole, rest) := text.span Char.isDigit
  match rest with
  | '.' :: rest =>
    let (part, rest) := rest.span Char.isDigit
    if whole.isEmpty && part.isEmpty then none
    else scanExponent (digitsValue (whole ++ part)) (-(part.length : Int)) rest
  | rest => if whole.isEmpty then none else scanExponent (digitsValue whole) 0 rest

/-- What follows `name` at the start of the text, in whatever case the name is written. -/
def afterName? (name text : List Char) : Option (List Char) :=
  if (text.take name.length).map Char.toLower = name then some (text.drop name.length) else none

/-- The longest numeral at the start of the text and what follows it. The names `nan` and `inf` take no
sign. -/
def scan (text : List Char) : Option (Numeral × List Char) :=
  let (negative, rest) := scanSign text
  match scanMagnitude rest with
  | some (magnitude, rest) => some (finite negative magnitude, rest)
  | none =>
    match afterName? "nan".toList text with
    | some rest => some (nan, rest)
    | none => (afterName? "inf".toList text).map fun rest => (infinite false, rest)

/-- The numeral that is the whole text. Here the names `nan`, `inf` and `infinity` may have a sign. -/
def read? (text : List Char) : Option Numeral :=
  let (negative, rest) := scanSign text
  let name := rest.map Char.toLower
  if name = "nan".toList then some nan
  else if name = "inf".toList ∨ name = "infinity".toList then some (infinite negative)
  else
    match scanMagnitude rest with
    | some (magnitude, []) => some (finite negative magnitude)
    | _ => none

end Numeral

end Extraction
