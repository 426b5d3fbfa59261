/-! Hexadecimal digits. -/
namespace Extraction.Text

def hexDigit? (c : Char) : Option Nat :=
  if c.isDigit then some (c.toNat - '0'.toNat)
  else if 'a' ≤ c && c ≤ 'f' then some (c.toNat - 'a'.toNat + 10)
  else if 'A' ≤ c && c ≤ 'F' then some (c.toNat - 'A'.toNat + 10)
  else none

/-- The value of hexadecimal digits, the first the highest. -/
def hexValue? (digits : List Char) : Option Nat :=
  digits.foldlM (fun acc c => (hexDigit? c).map (16 * acc + ·)) 0

def hexOctets? : List Char → Option (List UInt8)
  | [] => some []
  | [_] => none
  | a :: b :: rest => do
    let octet ← hexValue? [a, b]
    let octets ← hexOctets? rest
    return octet.toUInt8 :: octets

end Extraction.Text
