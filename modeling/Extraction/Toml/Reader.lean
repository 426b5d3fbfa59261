import Extraction.Toml.Scalar

/-! Reading settings files. A file is a list of statements, each on lines of its own: a header opens a
table, and an assignment gives a value to a dotted name in the table that was opened last. -/
namespace Extraction.Toml

inductive Statement where
  | header (path : List String)
  | assignment (path : List String) (value : Toml)

def skipGap (text : List Char) : List Char := text.dropWhile isGap

def isBare (c : Char) : Bool := c.isAlphanum || c = '_' || c = '-'

/-- One part of a dotted name: a bare word or a string on one line. -/
def scanName : List Char → Option (String × List Char)
  | '"' :: rest => (scanBasic rest).map fun s => (String.ofList s.1, s.2)
  | '\'' :: rest => (scanLiteral rest).map fun s => (String.ofList s.1, s.2)
  | text =>
    let (name, rest) := text.span isBare
    if name.isEmpty then none else some (String.ofList name, rest)

/-- A dotted name of at most `limit` parts, with the gaps around it. -/
def scanPath : (limit : Nat) → List Char → Option (List String × List Char)
  | 0, _ => none
  | limit + 1, text => do
    let (name, rest) ← scanName (skipGap text)
    match skipGap rest with
    | '.' :: rest =>
      let (path, rest) ← scanPath limit rest
      return (name :: path, rest)
    | rest => return ([name], rest)

def isWordChar (c : Char) : Bool := isBare c || c = '+' || c = '.'

mutual

/-- A value in which braces stand at most `limit` deep or one after another. -/
def scanValue : (limit : Nat) → List Char → Option (Toml × List Char)
  | 0, _ => none
  | limit + 1, text =>
    match text with
    | '\x7b' :: rest => do
      let (entries, rest) ←
        match skipGap rest with
        | '\x7d' :: rest => some ([], rest)
        | rest => scanEntries limit [] rest
      return (.table .braces entries, rest)
    | text =>
      match scanString text with
      | some (value, rest) => some (.string value, rest)
      | none =>
        let (word, rest) := text.span isWordChar
        (ofWord? word).map fun value => (value, rest)

/-- The entries of a table in braces after those in `entries`, up to the closing brace. -/
def scanEntries : (limit : Nat) → List (String × Toml) → List Char →
    Option (List (String × Toml) × List Char)
  | 0, _, _ => none
  | limit + 1, entries, text => do
    let (path, rest) ← scanPath text.length text
    match rest with
    | '=' :: rest =>
      let (value, rest) ← scanValue limit (skipGap rest)
      let entries ← assign entries value path
      match skipGap rest with
      | ',' :: rest => scanEntries limit entries rest
      | '\x7d' :: rest => return (entries, rest)
      | _ => none
    | _ => none

end

/-- What follows the end of a line, before which a comment may stand. -/
def scanLineEnd (text : List Char) : Option (List Char) :=
  let rest :=
    match skipGap text with
    | '#' :: rest => rest.dropWhile isPrintable
    | rest => rest
  if rest.isEmpty then some [] else afterNewline? rest

/-- A statement and what follows it on the line. -/
def scanStatement (text : List Char) : Option (Statement × List Char) :=
  match text with
  | '[' :: rest => do
    let (path, rest) ← scanPath text.length rest
    match rest with
    | ']' :: rest => return (.header path, rest)
    | _ => none
  | text => do
    let (path, rest) ← scanPath text.length text
    match rest with
    | '=' :: rest =>
      let (value, rest) ← scanValue text.length (skipGap rest)
      return (.assignment path value, rest)
    | _ => none

def statements : (limit : Nat) → List Char → Option (List Statement)
  | 0, _ => none
  | limit + 1, text =>
    match skipGap text with
    | [] => some []
    | c :: rest =>
      if c = '#' || c = '\n' || c = '\r' then (scanLineEnd (c :: rest)).bind (statements limit)
      else do
        let (statement, rest) ← scanStatement (c :: rest)
        let rest ← scanLineEnd rest
        let others ← statements limit rest
        return statement :: others

/-- The table that is described so far, and the path of the table that was opened last. -/
structure Building where
  entries : List (String × Toml)
  opened : List String

def Building.add (b : Building) : Statement → Option Building
  | .header path => (openTable b.entries path).map fun entries => ⟨entries, path⟩
  | .assignment path value =>
    (assignUnder b.entries value path b.opened).map fun entries => ⟨entries, b.opened⟩

/-- The entries of the table that a text describes. A byte order mark may stand in front. -/
def read? (text : List Char) : Option (List (String × Toml)) := do
  let text :=
    match text with
    | '\ufeff' :: rest => rest
    | text => text
  let statements ← statements (text.length + 1) text
  let built ← statements.foldlM Building.add ⟨[], []⟩
  return built.entries

end Extraction.Toml
