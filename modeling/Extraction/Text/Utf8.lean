/-! The UTF-8 encoding. Reading keeps what it can: octets that begin no well-formed sequence are left
in the result as gaps, one for each octet. -/
namespace Extraction.Text.Utf8

/-- A second octet allowed after `lead`: the shortest form only, no surrogates, nothing past U+10FFFF. -/
def secondFits (lead second : UInt8) : Bool :=
  let low : UInt8 := if lead = 0xe0 then 0xa0 else if lead = 0xf0 then 0x90 else 0x80
  let high : UInt8 := if lead = 0xed then 0x9f else if lead = 0xf4 then 0x8f else 0xbf
  low ≤ second && second ≤ high

def isContinuation (octet : UInt8) : Bool := 0x80 ≤ octet && octet ≤ 0xbf

/-- The code point whose leading bits are `high` and whose other bits come six from each octet. -/
def assemble (high : Nat) (octets : List UInt8) : Char :=
  Char.ofNat (octets.foldl (fun acc octet => acc * 64 + octet.toNat % 64) high)

/-- The character at the head of the octets and what follows it. -/
def head? : List UInt8 → Option (Char × List UInt8)
  | [] => none
  | a :: rest =>
    if a < 0x80 then some (assemble a.toNat [], rest)
    else if 0xc2 ≤ a && a ≤ 0xdf then
      match rest with
      | b :: rest => if isContinuation b then some (assemble (a.toNat % 32) [b], rest) else none
      | [] => none
    else if 0xe0 ≤ a && a ≤ 0xef then
      match rest with
      | b :: c :: rest =>
        if secondFits a b && isContinuation c then some (assemble (a.toNat % 16) [b, c], rest)
        else none
      | _ => none
    else if 0xf0 ≤ a && a ≤ 0xf4 then
      match rest with
      | b :: c :: d :: rest =>
        if secondFits a b && isContinuation c && isContinuation d then
          some (assemble (a.toNat % 8) [b, c, d], rest)
        else none
      | _ => none
    else none

theorem length_of_head? {octets : List UInt8} {c : Char} {rest : List UInt8}
    (h : head? octets = some (c, rest)) : rest.length < octets.length := by
  unfold head? at h
  repeat' split at h
  all_goals simp_all
  all_goals omega

/-- The characters of the octets, with `none` for each octet that is part of none. -/
def scan (octets : List UInt8) : List (Option Char) :=
  match octets with
  | [] => []
  | a :: rest =>
    match _h : head? (a :: rest) with
    | some (c, others) => some c :: scan others
    | none => none :: scan rest
termination_by octets.length
decreasing_by
  · exact length_of_head? _h
  · simp

/-- The text that the octets encode, if they are well formed throughout. -/
def decode (octets : List UInt8) : Option (List Char) := (scan octets).mapM id

end Extraction.Text.Utf8
