import Extraction.Decimal.Numeral
import Extraction.Decimal.Layout
import Extraction.Selection.Measures
import Extraction.Text.Blank
import Extraction.Text.Quoted
import Extraction.Text.Utf8

/-! Decisions: whether a node is used and whether a class is. They are exchanged with a solver as lines
`N_<class>_<index> <value>` and `A_<class> <value>`; a value that is read is rounded to 0 or 1, and a
missing one is 0. Blank lines and lines that begin with a number sign say nothing. -/
namespace Extraction

inductive Decision where
  | node (id : NodeId) (used : Bool)
  | eclass (c : ClassId) (used : Bool)
  deriving DecidableEq, Repr

inductive DecisionError where
  | unreadable
  | malformed (line : Nat) (text : String)
  | invalidValue (line : Nat) (value : Float)
  | conflict (c : ClassId) (first second : NodeId)

def DecisionError.message : DecisionError → String
  | unreadable => "the decisions cannot be read"
  | malformed line text => "line " ++ toString line ++ ": cannot parse " ++ Text.quoted text
  | invalidValue line value =>
    "line " ++ toString line ++ ": value " ++ Layout.plain.render value ++
      " does not round to 0 or 1"
  | conflict c first second =>
    "class " ++ c.text ++ " chooses both " ++ first.text ++ " and " ++ second.text

namespace Decision

/-- What is decided: the variable of a line. -/
inductive Variable where
  | node (id : NodeId)
  | eclass (c : ClassId)
  deriving DecidableEq, Repr

def Variable.decide (used : Bool) : Variable → Decision
  | node id => .node id used
  | eclass c => .eclass c used

/-- A decimal number below `2 ^ 32` at the start of the text. -/
def scanWord (text : List Char) : Option (UInt32 × List Char) :=
  let (digits, rest) := text.span Char.isDigit
  let value := Numeral.digitsValue digits
  if digits.isEmpty || UInt32.size ≤ value then none else some (value.toUInt32, rest)

/-- The variable at the start of a line. -/
def scanVariable : List Char → Option (Variable × List Char)
  | 'N' :: '_' :: rest => do
    let (owner, rest) ← scanWord rest
    match rest with
    | '_' :: rest => (scanWord rest).map fun w => (.node ⟨⟨owner⟩, w.1⟩, w.2)
    | _ => none
  | 'A' :: '_' :: rest => (scanWord rest).map fun w => (.eclass ⟨w.1⟩, w.2)
  | _ => none

def isGap (c : Char) : Bool := c = ' ' || c = '\t'

/-- The value after a variable: nothing, or a gap and a numeral up to the end of the line. -/
def readValue? : List Char → Option (Option Float)
  | [] => some none
  | c :: rest =>
    if isGap c then
      match Numeral.scan (rest.dropWhile isGap) with
      | some (value, []) => some (some value.value)
      | _ => none
    else none

/-- The value rounded to 0 or 1, a half going away from zero. -/
def roundValue? (value : Float) : Option Bool :=
  if -0.5 < value && value < 0.5 then some false
  else if 0.5 ≤ value && value < 1.5 then some true
  else none

/-- The decision on one line without blanks around it. -/
def readLine (line : Nat) (text : List Char) : Except DecisionError Decision :=
  match scanVariable text with
  | none => .error (.malformed line (String.ofList text))
  | some (target, rest) =>
    match readValue? rest with
    | none => .error (.malformed line (String.ofList text))
    | some none => .ok (target.decide false)
    | some (some value) =>
      match roundValue? value with
      | none => .error (.invalidValue line value)
      | some used => .ok (target.decide used)

/-- Whether a line without blanks around it says nothing. -/
def isSilent (text : List Char) : Bool := text.isEmpty || text.head? = some '#'

/-- The decisions on lines that are numbered from `line` on. -/
def readLines (line : Nat) : List (List Char) → Except DecisionError (List Decision)
  | [] => .ok []
  | raw :: rest =>
    let text := Text.trim raw
    if isSilent text then readLines (line + 1) rest
    else do
      let decision ← readLine line text
      let others ← readLines (line + 1) rest
      return decision :: others

def readAll (text : String) : Except DecisionError (List Decision) :=
  readLines 1 (Text.lines text.toList)

def ofOctets (octets : List UInt8) : Except DecisionError (List Decision) :=
  match Text.Utf8.decode octets with
  | none => .error .unreadable
  | some text => readLines 1 (Text.lines text)

def usedText (used : Bool) : List Char := if used then ['1'] else ['0']

def line : Decision → List Char
  | node id used =>
    "N_".toList ++ id.owner.text.toList ++ '_' :: (toString id.index.toNat).toList ++
      ' ' :: usedText used
  | eclass c used => "A_".toList ++ c.text.toList ++ ' ' :: usedText used

def render (decisions : List Decision) : String :=
  String.ofList (decisions.flatMap fun d => d.line ++ ['\n'])

def rulingOut (nodes : List NodeId) : List Decision := nodes.map fun id => .node id false

def ruledOut (decisions : List Decision) : List NodeId :=
  decisions.filterMap fun d =>
    match d with
    | node id false => some id
    | _ => none

/-- A selection as decisions to start from: its nodes that are in use below the roots, and for each other
choice that the class is not used. -/
def warmStart {α : Type} [Cost α] (s : Selection α) (g : EGraph α) :
    Except CheckError (List Decision) := do
  let active ← s.activeNodes g g.roots
  return s.choices.toList.map fun e =>
    if active.contains e.2 then .node e.2 true else .eclass e.1 false

/-- Follows one decision. Only a node of the graph that is used makes a difference. -/
def follow {α : Type} [Cost α] (g : EGraph α) (s : Selection α) :
    Decision → Except DecisionError (Selection α)
  | node id true =>
    if (g.node? id).isNone then .ok s
    else
      match s.choice? id.owner with
      | none => .ok (s.choose id.owner id)
      | some first => if first = id then .ok s else .error (.conflict id.owner first id)
  | _ => .ok s

def toSelection {α : Type} [Cost α] (decisions : List Decision) (g : EGraph α) :
    Except DecisionError (Selection α) :=
  decisions.foldlM (follow g) ∅

end Decision

end Extraction
