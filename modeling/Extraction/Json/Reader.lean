import Extraction.Json.Number
import Extraction.Json.Value
import Extraction.Text.Hex

/-! Reading JSON text. The text is cut into tokens, and the tokens are folded into a value with an
explicit stack of the arrays and objects that are still open, so no depth of nesting is too deep. A gap
in the text stands for an octet that is part of no character; a string may hold one, and then has no
text. -/
namespace Extraction.Json

inductive Token where
  | openArray
  | closeArray
  | openObject
  | closeObject
  | comma
  | colon
  | scalar (value : Json)

/-- What a string is made of: characters, 16-bit units given by escapes, and gaps. -/
inductive StringPart where
  | char (c : Char)
  | unit (n : Nat)
  | gap

/-- The character that a backslash before `c` stands for. -/
def escape? (c : Char) : Option Char :=
  match c with
  | '"' => some '"'
  | '\\' => some '\\'
  | '/' => some '/'
  | 'b' => some '\x08'
  | 'f' => some '\x0c'
  | 'n' => some '\n'
  | 'r' => some '\r'
  | 't' => some '\t'
  | _ => none

/-- The parts of a string up to its closing quote, and what follows. -/
def scanString : List (Option Char) → Option (List StringPart × List (Option Char))
  | [] => none
  | none :: rest => (scanString rest).map fun s => (.gap :: s.1, s.2)
  | some '"' :: rest => some ([], rest)
  | some '\\' :: some 'u' :: a :: b :: c :: d :: rest =>
    match [a, b, c, d].mapM id |>.bind Text.hexValue? with
    | none => none
    | some n => (scanString rest).map fun s => (.unit n :: s.1, s.2)
  | some '\\' :: some c :: rest =>
    match escape? c with
    | none => none
    | some c => (scanString rest).map fun s => (.char c :: s.1, s.2)
  | some c :: rest =>
    if c = '\\' || c < ' ' then none else (scanString rest).map fun s => (.char c :: s.1, s.2)

theorem length_of_scanString {text rest : List (Option Char)} {parts : List StringPart}
    (h : scanString text = some (parts, rest)) : rest.length < text.length := by
  fun_induction scanString text generalizing parts with
  | case1 => simp at h
  | case2 text ih =>
    obtain ⟨s, hs, same⟩ := Option.map_eq_some_iff.1 h
    cases same
    have := ih hs
    simp only [List.length_cons]
    omega
  | case3 text =>
    cases h
    simp
  | case4 => simp at h
  | case5 a b c d text n hn ih =>
    obtain ⟨s, hs, same⟩ := Option.map_eq_some_iff.1 h
    cases same
    have := ih hs
    simp only [List.length_cons]
    omega
  | case6 => simp at h
  | case7 c text hu e he ih =>
    obtain ⟨s, hs, same⟩ := Option.map_eq_some_iff.1 h
    cases same
    have := ih hs
    simp only [List.length_cons]
    omega
  | case8 => simp at h
  | case9 c text hq hu he hc ih =>
    obtain ⟨s, hs, same⟩ := Option.map_eq_some_iff.1 h
    cases same
    have := ih hs
    simp only [List.length_cons]
    omega

/-- The characters of a string. Two units are one character if they are a surrogate pair, and a
surrogate that is no half of a pair is no character. -/
def joinParts : List StringPart → Option (List Char)
  | [] => some []
  | .char c :: rest => (joinParts rest).map (c :: ·)
  | .gap :: _ => none
  | .unit high :: .unit low :: rest =>
    if 0xd800 ≤ high && high < 0xdc00 && 0xdc00 ≤ low && low < 0xe000 then
      (joinParts rest).map
        (Char.ofNat (0x10000 + (high - 0xd800) * 0x400 + (low - 0xdc00)) :: ·)
    else if 0xd800 ≤ high && high < 0xe000 then none
    else (joinParts (.unit low :: rest)).map (Char.ofNat high :: ·)
  | .unit n :: rest =>
    if 0xd800 ≤ n && n < 0xe000 then none else (joinParts rest).map (Char.ofNat n :: ·)

def isSpace (c : Char) : Bool := c = ' ' || c = '\n' || c = '\t' || c = '\r'

def isNumberChar (c : Char) : Bool :=
  c.isDigit || c = '-' || c = '+' || c = '.' || c = 'e' || c = 'E'

/-- The longest run of characters of a class, as a text, and what follows. -/
def scanRun (p : Char → Bool) : List (Option Char) → List Char × List (Option Char)
  | some c :: rest =>
    if p c then
      let (run, rest) := scanRun p rest
      (c :: run, rest)
    else ([], some c :: rest)
  | rest => ([], rest)

theorem length_scanRun (p : Char → Bool) (text : List (Option Char)) :
    (scanRun p text).2.length ≤ text.length := by
  fun_induction scanRun p text with
  | case1 c rest hc run tail h ih =>
    rw [h] at ih
    simpa using Nat.le_succ_of_le ih
  | case2 => simp
  | case3 => simp

def keyword? (word : List Char) : Option Json :=
  if word = "null".toList then some .null
  else if word = "true".toList then some (.bool true)
  else if word = "false".toList then some (.bool false)
  else none

def punctuation? (c : Char) : Option Token :=
  match c with
  | '[' => some .openArray
  | ']' => some .closeArray
  | '{' => some .openObject
  | '}' => some .closeObject
  | ',' => some .comma
  | ':' => some .colon
  | _ => none

/-- The token that begins with `c`, and what follows it. -/
def scanToken (c : Char) (rest : List (Option Char)) : Option (Token × List (Option Char)) :=
  match punctuation? c with
  | some token => some (token, rest)
  | none =>
    if c = '"' then
      (scanString rest).map fun s => (.scalar (.string ((joinParts s.1).map String.ofList)), s.2)
    else if isNumberChar c then
      let (run, rest) := scanRun isNumberChar rest
      if (numberParts? (c :: run)).isSome then
        some (.scalar (.number (String.ofList (c :: run))), rest)
      else none
    else
      let (run, rest) := scanRun Char.isAlpha rest
      (keyword? (c :: run)).map fun value => (.scalar value, rest)

theorem length_of_scanToken {c : Char} {text rest : List (Option Char)} {token : Token}
    (h : scanToken c text = some (token, rest)) : rest.length ≤ text.length := by
  unfold scanToken at h
  split at h
  · cases h
    exact Nat.le_refl _
  · by_cases quote : c = '"'
    · rw [if_pos quote] at h
      obtain ⟨s, hs, same⟩ := Option.map_eq_some_iff.1 h
      cases same
      exact Nat.le_of_lt (length_of_scanString hs)
    · rw [if_neg quote] at h
      by_cases number : isNumberChar c = true
      · simp only [number, if_true] at h
        split at h
        · cases h
          exact length_scanRun _ _
        · cases h
      · simp only [number] at h
        obtain ⟨s, hs, same⟩ := Option.map_eq_some_iff.1 h
        cases same
        exact length_scanRun _ _

def tokens (text : List (Option Char)) : Option (List Token) :=
  match text with
  | [] => some []
  | none :: _ => none
  | some c :: rest =>
    if isSpace c then tokens rest
    else
      match _h : scanToken c rest with
      | none => none
      | some (token, others) => (tokens others).map (token :: ·)
termination_by text.length
decreasing_by
  · simp
  · exact Nat.lt_succ_of_le (length_of_scanToken _h)

/-- An array or an object that is still open, its parts latest first. An object may wait for the value
of a member. -/
inductive Open where
  | array (items : List Json)
  | object (members : List (Option String × Json))
  | member (members : List (Option String × Json)) (name : Option String)

inductive Expected where
  | value
  | itemOrEnd
  | name
  | nameOrEnd
  | colon
  | separator

/-- A value part way through being read, with its open parts from the inside out. -/
inductive Progress where
  | reading (stack : List Open) (expected : Expected)
  | finished (value : Json)

/-- Puts a whole value in its place. -/
def Progress.place (value : Json) : List Open → Option Progress
  | [] => some (.finished value)
  | .array items :: outer => some (.reading (.array (value :: items) :: outer) .separator)
  | .member members name :: outer =>
    some (.reading (.object ((name, value) :: members) :: outer) .separator)
  | .object _ :: _ => none

def Progress.step : Progress → Token → Option Progress
  | .finished _, _ => none
  | .reading stack expected, token =>
    match expected, token, stack with
    | .value, .scalar v, _ | .itemOrEnd, .scalar v, _ => Progress.place v stack
    | .value, .openArray, _ | .itemOrEnd, .openArray, _ =>
      some (.reading (.array [] :: stack) .itemOrEnd)
    | .value, .openObject, _ | .itemOrEnd, .openObject, _ =>
      some (.reading (.object [] :: stack) .nameOrEnd)
    | .itemOrEnd, .closeArray, .array items :: outer
    | .separator, .closeArray, .array items :: outer => Progress.place (.array items.reverse) outer
    | .nameOrEnd, .closeObject, .object members :: outer
    | .separator, .closeObject, .object members :: outer =>
      Progress.place (.object members.reverse) outer
    | .separator, .comma, .array _ :: _ => some (.reading stack .value)
    | .separator, .comma, .object _ :: _ => some (.reading stack .name)
    | .name, .scalar (.string name), .object members :: outer
    | .nameOrEnd, .scalar (.string name), .object members :: outer =>
      some (.reading (.member members name :: outer) .colon)
    | .colon, .colon, _ => some (.reading stack .value)
    | _, _, _ => none

def ofTokens? (tokens : List Token) : Option Json :=
  match tokens.foldlM Progress.step (.reading [] .value) with
  | some (.finished value) => some value
  | _ => none

def read? (text : List (Option Char)) : Option Json := (tokens text).bind ofTokens?

end Extraction.Json
