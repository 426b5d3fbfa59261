import Extraction.Decimal.Numeral
import Extraction.Text.Hex
import Extraction.Toml.Value

/-! Strings and bare values of settings files: the strings in single or double quotes, on one line or on
several, and the words that are truth values, whole numbers or floats. -/
namespace Extraction.Toml

def isGap (c : Char) : Bool := c = ' ' || c = '\t'

/-- A character that may stand in a comment, and within quotes unless it has a meaning there. -/
def isPrintable (c : Char) : Bool := c = '\t' || (' ' ≤ c && c ≤ '~') || '\u0080' ≤ c

def charOf? (n : Nat) : Option Char := if n.isValidChar then some (Char.ofNat n) else none

def escape? (c : Char) : Option Char :=
  match c with
  | 'b' => some '\x08'
  | 't' => some '\t'
  | 'n' => some '\n'
  | 'f' => some '\x0c'
  | 'r' => some '\r'
  | '"' => some '"'
  | '\\' => some '\\'
  | _ => none

/-- The character named by the hexadecimal digits of an escape. -/
def escapeValue? (digits : List Char) : Option Char := (Text.hexValue? digits).bind charOf?

def prepend? (c : Option Char) (scanned : Option (List Char × List Char)) :
    Option (List Char × List Char) := do
  let c ← c
  let (text, rest) ← scanned
  return (c :: text, rest)

/-- The text up to a double quote on the same line. -/
def scanBasic : List Char → Option (List Char × List Char)
  | [] => none
  | '"' :: rest => some ([], rest)
  | '\\' :: 'u' :: a :: b :: c :: d :: rest =>
    prepend? (escapeValue? [a, b, c, d]) (scanBasic rest)
  | '\\' :: 'U' :: a :: b :: c :: d :: e :: f :: g :: h :: rest =>
    prepend? (escapeValue? [a, b, c, d, e, f, g, h]) (scanBasic rest)
  | '\\' :: c :: rest => prepend? (escape? c) (scanBasic rest)
  | c :: rest => if isPrintable c && c ≠ '\\' then prepend? (some c) (scanBasic rest) else none

/-- The text up to a single quote on the same line. Nothing is escaped. -/
def scanLiteral : List Char → Option (List Char × List Char)
  | [] => none
  | '\'' :: rest => some ([], rest)
  | c :: rest => if isPrintable c then prepend? (some c) (scanLiteral rest) else none

def afterNewline? : List Char → Option (List Char)
  | '\n' :: rest => some rest
  | '\r' :: '\n' :: rest => some rest
  | _ => none

/-- Up to two quotes that stand right before the closing three belong to the text. -/
def closeLong (quote : Char) (rest : List Char) : List Char × List Char :=
  let extra := min 2 (rest.takeWhile fun c => c = quote).length
  (List.replicate extra quote, rest.drop extra)

/-- The text up to three double quotes. A backslash at the end of a line leaves out all blanks that
follow, which is when `skipping` is set. -/
def scanLongBasic (skipping : Bool) : List Char → Option (List Char × List Char)
  | [] => none
  | '"' :: '"' :: '"' :: rest => some (closeLong '"' rest)
  | '\\' :: 'u' :: a :: b :: c :: d :: rest =>
    prepend? (escapeValue? [a, b, c, d]) (scanLongBasic false rest)
  | '\\' :: 'U' :: a :: b :: c :: d :: e :: f :: g :: h :: rest =>
    prepend? (escapeValue? [a, b, c, d, e, f, g, h]) (scanLongBasic false rest)
  | '\r' :: '\n' :: rest =>
    if skipping then scanLongBasic true rest
    else prepend? (some '\n') (scanLongBasic false rest)
  | '\\' :: c :: rest =>
    if isGap c || c = '\n' || c = '\r' then
      if (afterNewline? ((c :: rest).dropWhile isGap)).isSome then
        scanLongBasic true rest
      else none
    else prepend? (escape? c) (scanLongBasic false rest)
  | c :: rest =>
    if skipping && (isGap c || c = '\n') then scanLongBasic true rest
    else if (isPrintable c && c ≠ '\\') || c = '\n' then
      prepend? (some c) (scanLongBasic false rest)
    else none

def scanLongLiteral : List Char → Option (List Char × List Char)
  | [] => none
  | '\'' :: '\'' :: '\'' :: rest => some (closeLong '\'' rest)
  | '\r' :: '\n' :: rest => prepend? (some '\n') (scanLongLiteral rest)
  | c :: rest =>
    if isPrintable c || c = '\n' then prepend? (some c) (scanLongLiteral rest) else none

/-- A string of any kind. A line end right after three opening quotes is left out. -/
def scanString : List Char → Option (String × List Char)
  | '"' :: '"' :: '"' :: rest =>
    (scanLongBasic false ((afterNewline? rest).getD rest)).map fun s => (String.ofList s.1, s.2)
  | '\'' :: '\'' :: '\'' :: rest =>
    (scanLongLiteral ((afterNewline? rest).getD rest)).map fun s => (String.ofList s.1, s.2)
  | '"' :: rest => (scanBasic rest).map fun s => (String.ofList s.1, s.2)
  | '\'' :: rest => (scanLiteral rest).map fun s => (String.ofList s.1, s.2)
  | _ => none

/-- Digits with single underscores between them, without the underscores. -/
def underscored? (isDigit : Char → Bool) : List Char → Option (List Char)
  | [] => none
  | [c] => if isDigit c then some [c] else none
  | c :: '_' :: rest => if isDigit c then (underscored? isDigit rest).map (c :: ·) else none
  | c :: rest => if isDigit c then (underscored? isDigit rest).map (c :: ·) else none

/-- The digits of a decimal number without a needless zero in front. -/
def plainDigits? (word : List Char) : Option (List Char) := do
  let digits ← underscored? Char.isDigit word
  if digits.head? = some '0' && 1 < digits.length then none else some digits

/-- The value of digits below `base`, with single underscores between them. -/
def radixValue? (base : Nat) (word : List Char) : Option Nat := do
  let below (c : Char) : Bool := (Text.hexDigit? c).any fun d => d < base
  let digits ← underscored? below word
  return digits.foldl (fun acc c => base * acc + (Text.hexDigit? c).getD 0) 0

def fits (n : Int) : Bool := -0x8000000000000000 ≤ n && n < 0x8000000000000000

def integer? (word : List Char) : Option Int := do
  let value : Int ←
    match word with
    | '0' :: 'x' :: digits => (radixValue? 16 digits).map Int.ofNat
    | '0' :: 'o' :: digits => (radixValue? 8 digits).map Int.ofNat
    | '0' :: 'b' :: digits => (radixValue? 2 digits).map Int.ofNat
    | word => do
      let (negative, digits) := Numeral.scanSign word
      let value : Int := Numeral.digitsValue (← plainDigits? digits)
      some (if negative then -value else value)
  if fits value then some value else none

def fraction? : List Char → Option (List Char × List Char)
  | '.' :: rest => do
    let (part, rest) := rest.span fun c => c.isDigit || c = '_'
    return (← underscored? Char.isDigit part, rest)
  | rest => some ([], rest)

def power? : List Char → Option Int
  | [] => some 0
  | c :: rest =>
    if c = 'e' || c = 'E' then do
      let (negative, digits) := Numeral.scanSign rest
      let value : Int := Numeral.digitsValue (← underscored? Char.isDigit digits)
      some (if negative then -value else value)
    else none

/-- The double that a word stands for. Digits alone are no float, and a number too large for a double is
refused. -/
def float? (word : List Char) : Option Float := do
  let (negative, rest) := Numeral.scanSign word
  if rest = "inf".toList then return (Numeral.infinite negative).value
  else if rest = "nan".toList then return Numeral.nan.value
  else
    let (whole, rest) := rest.span fun c => c.isDigit || c = '_'
    if rest.isEmpty then none
    else
      let whole ← plainDigits? whole
      let (part, rest) ← fraction? rest
      let power ← power? rest
      let digits := Numeral.digitsValue (whole ++ part)
      let value := (Numeral.finite negative ⟨digits, power - part.length⟩).value
      if value.isInf && !negative then none else some value

def ofWord? (word : List Char) : Option Toml :=
  if word = "true".toList then some (.boolean true)
  else if word = "false".toList then some (.boolean false)
  else
    match integer? word with
    | some n => some (.integer n)
    | none => (float? word).map .float

end Extraction.Toml
