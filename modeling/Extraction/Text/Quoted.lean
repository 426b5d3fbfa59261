import Extraction.Text.Invisible

/-! Texts shown between double quotes in messages. A quote and a backslash are preceded by a
backslash, the usual controls have a letter, and whatever would not show is named by its code point in
hexadecimal. -/
namespace Extraction.Text

def escaped (c : Char) : List Char :=
  if c = '"' then ['\\', '"']
  else if c = '\\' then ['\\', '\\']
  else if c = '\n' then ['\\', 'n']
  else if c = '\r' then ['\\', 'r']
  else if c = '\t' then ['\\', 't']
  else if c = '\x00' then ['\\', '0']
  else if isInvisible c then
    ['\\', 'u', '\x7b'] ++ Nat.toDigits 16 c.toNat ++ ['\x7d']
  else [c]

def quote (text : List Char) : List Char := '"' :: (text.flatMap escaped ++ ['"'])

def quoted (text : String) : String := String.ofList (quote text.toList)

end Extraction.Text
