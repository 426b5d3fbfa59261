import Extraction.Settings
import Extraction.Decimal.Numeral

/-! The arguments of the command line: one input, and options that may each be given once. -/
namespace Extraction.CommandLine

structure Arguments where
  input : String
  config : Option String := none
  extractor : Option Extractor := none
  passes : Option Nat := none
  threads : Option Nat := none
  timeout : Option Nat := none
  bound : Option Float := none
  noCanonicalize : Bool := false
  warmStart : Option String := none
  zeroNodes : Option String := none
  solution : Option String := none
  costLog : Option String := none
  csv : Option String := none
  output : Option String := none

/-- What one or two arguments say: the input, an option with its value, or a flag. -/
inductive Item where
  | input (path : String)
  | option (name value : String)
  | flag (name : String)

def optionNames : List String :=
  ["config", "extractor", "passes", "threads", "timeout", "bound", "warm-start", "zero-nodes",
    "solution", "cost-log", "csv", "output"]

def flagNames : List String := ["no-canonicalize"]

/-- Options with a name of one letter. -/
def shortName? (c : Char) : Option String := if c = 'o' then some "output" else none

/-- A name and, after an equals sign, a value. -/
def splitValue (text : List Char) : List Char × Option (List Char) :=
  let (name, rest) := text.span fun c => c ≠ '='
  (name, rest.tail?)

/-- Whether an argument looks like an option. A lone hyphen does not. -/
def isDashed (argument : String) : Bool :=
  match argument.toList with
  | '-' :: _ :: _ => true
  | _ => false

/-- The items that the arguments spell, in order. After `--` every argument is an input. -/
def items? : List String → Option (List Item)
  | [] => some []
  | argument :: rest =>
    match argument.toList with
    | ['-', '-'] => some (rest.map .input)
    | '-' :: '-' :: text =>
      let (name, value) := splitValue text
      let name := String.ofList name
      if optionNames.contains name then
        match value with
        | some value => (items? rest).map (.option name (String.ofList value) :: ·)
        | none =>
          match rest with
          | [] => none
          | value :: rest =>
            if isDashed value then none else (items? rest).map (.option name value :: ·)
      else if flagNames.contains name && value.isNone then (items? rest).map (.flag name :: ·)
      else none
    | '-' :: letter :: text =>
      match shortName? letter with
      | none => none
      | some name =>
        match text with
        | '=' :: value => (items? rest).map (.option name (String.ofList value) :: ·)
        | _ :: _ => (items? rest).map (.option name (String.ofList text) :: ·)
        | [] =>
          match rest with
          | [] => none
          | value :: rest =>
            if isDashed value then none else (items? rest).map (.option name value :: ·)
    | _ => (items? rest).map (.input argument :: ·)

/-- A whole number of at most 64 bits, with an optional plus sign. -/
def word? (text : String) : Option Nat :=
  let digits :=
    match text.toList with
    | '+' :: rest => rest
    | rest => rest
  let value := Numeral.digitsValue digits
  if !digits.isEmpty && digits.all Char.isDigit && value < UInt64.size then some value else none

/-- The value given for an option that may be given once. The outer `none` says that it was repeated. -/
def single? (items : List Item) (name : String) : Option (Option String) :=
  let given := items.filterMap fun item =>
    match item with
    | .option n value => if n = name then some value else none
    | _ => none
  match given with
  | [] => some none
  | [value] => some (some value)
  | _ => none

/-- The value of an option, read as it should be. -/
def parsed? {α : Type} (items : List Item) (name : String) (read? : String → Option α) :
    Option (Option α) := do
  match ← single? items name with
  | none => return none
  | some value => return some (← read? value)

/-- Whether a flag is set. The outer `none` says that it was repeated. -/
def flag? (items : List Item) (name : String) : Option Bool :=
  let given := items.filter fun item =>
    match item with
    | .flag n => n = name
    | _ => false
  match given with
  | [] => some false
  | [_] => some true
  | _ => none

def inputs (items : List Item) : List String :=
  items.filterMap fun item =>
    match item with
    | .input path => some path
    | _ => none

def Arguments.read? (arguments : List String) : Option Arguments := do
  let items ← items? arguments
  let [input] := inputs items | none
  return {
    input
    config := ← single? items "config"
    extractor := ← parsed? items "extractor" Extractor.ofName?
    passes := ← parsed? items "passes" word?
    threads := ← parsed? items "threads" word?
    timeout := ← parsed? items "timeout" word?
    bound := ← parsed? items "bound" fun text => (Numeral.read? text.toList).map Numeral.value
    noCanonicalize := ← flag? items "no-canonicalize"
    warmStart := ← single? items "warm-start"
    zeroNodes := ← single? items "zero-nodes"
    solution := ← single? items "solution"
    costLog := ← single? items "cost-log"
    csv := ← single? items "csv"
    output := ← single? items "output"
  }

def Arguments.apply (a : Arguments) (s : Settings) : Settings where
  extractor := a.extractor.getD s.extractor
  passes := a.passes.getD s.passes
  pruneSingleChild := s.pruneSingleChild
  threads := a.threads <|> s.threads
  batchSize := s.batchSize
  timeoutSecs := a.timeout <|> s.timeoutSecs
  canonicalize := !a.noCanonicalize && s.canonicalize
  bound := a.bound.getD s.bound

end Extraction.CommandLine
