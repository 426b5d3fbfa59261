import Extraction.Json.Value

/-! Writing JSON with one item or member to a line, two spaces further in than what holds it. An array
or an object without parts is written without a line of its own. -/
namespace Extraction.Json

/-- A character as it stands in a written string. Only quotes, backslashes and controls are escaped. -/
def escapeChar (c : Char) : List Char :=
  match c with
  | '"' => ['\\', '"']
  | '\\' => ['\\', '\\']
  | '\n' => ['\\', 'n']
  | '\r' => ['\\', 'r']
  | '\t' => ['\\', 't']
  | '\x08' => ['\\', 'b']
  | '\x0c' => ['\\', 'f']
  | c =>
    if c < ' ' then
      ['\\', 'u', '0', '0', (c.toNat / 16).digitChar, (c.toNat % 16).digitChar]
    else [c]

def stringText (text : List Char) : List Char := '"' :: (text.flatMap escapeChar ++ ['"'])

/-- The start of a line `depth` levels in. -/
def newline (depth : Nat) : List Char := '\n' :: List.replicate (2 * depth) ' '

/-- The name of a member, or a string value. A string without text is written as an empty one. -/
def optionText (text : Option String) : List Char := stringText (text.getD "").toList

mutual

def layOut (depth : Nat) : Json → List Char
  | .null => "null".toList
  | .bool true => "true".toList
  | .bool false => "false".toList
  | .number lexeme => lexeme.toList
  | .string text => optionText text
  | .array [] => ['[', ']']
  | .array (item :: items) =>
    '[' :: newline (depth + 1) ++ layOut (depth + 1) item ++ layOutItems (depth + 1) items ++
      newline depth ++ [']']
  | .object [] => ['\x7b', '\x7d']
  | .object (member :: members) =>
    '\x7b' :: newline (depth + 1) ++ layOutMember (depth + 1) member ++
      layOutMembers (depth + 1) members ++ newline depth ++ ['\x7d']

def layOutItems (depth : Nat) : List Json → List Char
  | [] => []
  | item :: items => ',' :: newline depth ++ layOut depth item ++ layOutItems depth items

def layOutMember (depth : Nat) : Option String × Json → List Char
  | (name, value) => optionText name ++ ':' :: ' ' :: layOut depth value

def layOutMembers (depth : Nat) : List (Option String × Json) → List Char
  | [] => []
  | member :: members =>
    ',' :: newline depth ++ layOutMember depth member ++ layOutMembers depth members

end

/-- The text of a value that begins a line. -/
def pretty (value : Json) : String := String.ofList (layOut 0 value)

def record (members : List (String × Json)) : Json :=
  .object (members.map fun m => (some m.1, m.2))

def ofNat (n : Nat) : Json := .number (toString n)

end Extraction.Json
