import Extraction.Id
import Extraction.Text.Blank
import Extraction.Text.Quoted

/-! Reading identities from text. A component is a decimal number below `2 ^ 32` with an optional plus
sign, blanks around it left out of account; a node is two components around the first dot. -/
namespace Extraction

inductive ComponentFault where
  | empty
  | invalidDigit
  | tooLarge
  deriving DecidableEq, Repr

inductive IdError where
  | missingDot (text : String)
  | invalidComponent (text : String) (fault : ComponentFault)
  deriving DecidableEq, Repr

def ComponentFault.message : ComponentFault → String
  | empty => "cannot parse integer from empty string"
  | invalidDigit => "invalid digit found in string"
  | tooLarge => "number too large to fit in target type"

def IdError.message : IdError → String
  | missingDot text =>
    "expected node id of the form '<class>.<index>', got " ++ Text.quoted text
  | invalidComponent text fault =>
    "invalid id component " ++ Text.quoted text ++ ": " ++ fault.message

namespace Component

/-- Appends a digit to a number below `2 ^ 32`. -/
def appendDigit (acc : Nat) (c : Char) : Except ComponentFault Nat :=
  if !c.isDigit then .error .invalidDigit
  else
    let next := 10 * acc + (c.toNat - '0'.toNat)
    if next < UInt32.size then .ok next else .error .tooLarge

/-- The number that a text without blanks around it stands for. -/
def readDigits (text : List Char) : Except ComponentFault Nat :=
  match text with
  | [] => .error .empty
  | ['+'] => .error .invalidDigit
  | '+' :: digits => digits.foldlM appendDigit 0
  | digits => digits.foldlM appendDigit 0

def read (text : List Char) : Except IdError UInt32 :=
  match readDigits (Text.trim text) with
  | .ok n => .ok n.toUInt32
  | .error fault => .error (.invalidComponent (String.ofList text) fault)

end Component

def ClassId.read (text : String) : Except IdError ClassId :=
  (Component.read text.toList).map ClassId.mk

/-- The text before the first dot and the text after it. -/
def splitDot? : List Char → Option (List Char × List Char)
  | [] => none
  | '.' :: rest => some ([], rest)
  | c :: rest => (splitDot? rest).map fun parts => (c :: parts.1, parts.2)

def NodeId.read (text : String) : Except IdError NodeId :=
  match splitDot? text.toList with
  | none => .error (.missingDot text)
  | some (owner, index) => do
    let owner ← Component.read owner
    let index ← Component.read index
    return ⟨⟨owner⟩, index⟩

end Extraction
