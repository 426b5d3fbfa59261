import Extraction.Decimal.Layout
import Extraction.Decimal.Numeral
import Extraction.Text.Blank
import Extraction.Text.Quoted

/-! Incumbents: the best solutions so far, each with the time at which it was found. A log takes an
incumbent only if it is later and better than the last; it is written as lines `<elapsed>: <objective>`
and read back under the same rule. -/
namespace Extraction

structure Incumbent where
  elapsed : Float
  objective : Float

inductive LogError where
  | malformed (line : Nat) (text : String)
  | notMonotone (line : Nat)

def LogError.message : LogError → String
  | malformed line text => "line " ++ toString line ++ ": cannot parse " ++ Text.quoted text
  | notMonotone line =>
    "line " ++ toString line ++ ": not an improvement on the previous incumbent"

namespace Incumbent

/-- Whether `i` comes later than `last` and is better. -/
def succeeds (i last : Incumbent) : Bool :=
  !(i.elapsed ≤ last.elapsed) && !(last.objective ≤ i.objective)

def line (i : Incumbent) : String :=
  Layout.plain.render i.elapsed ++ ": " ++ Layout.plain.render i.objective ++ "\n"

/-- The incumbent on one line without blanks around it. -/
def readLine? (text : List Char) : Option Incumbent := do
  let (elapsed, rest) ← Numeral.scan text
  match rest with
  | ':' :: rest =>
    match Numeral.scan (rest.dropWhile fun c => c = ' ' || c = '\t') with
    | some (objective, []) => some ⟨elapsed.value, objective.value⟩
    | _ => none
  | _ => none

/-- The incumbents on lines that are numbered from `line` on, after the incumbent `last`. -/
def readLines (line : Nat) (last : Option Incumbent) :
    List (List Char) → Except LogError (List Incumbent)
  | [] => .ok []
  | raw :: rest =>
    let text := Text.trim raw
    if text.isEmpty then readLines (line + 1) last rest
    else
      match readLine? text with
      | none => .error (.malformed line (String.ofList text))
      | some i =>
        if last.all i.succeeds then (readLines (line + 1) (some i) rest).map (i :: ·)
        else .error (.notMonotone line)

def readAll (text : String) : Except LogError (List Incumbent) :=
  readLines 1 none (Text.lines text.toList)

end Incumbent

/-- What a log has written and the last incumbent that it took. -/
structure IncumbentLog where
  written : String
  best : Option Incumbent

inductive Offer where
  | taken
  | refused
  | failed
  deriving DecidableEq, Repr

namespace IncumbentLog

def empty : IncumbentLog := ⟨"", none⟩

instance : EmptyCollection IncumbentLog := ⟨empty⟩

/-- Offers an incumbent. It is taken if its numbers are finite, it succeeds the last one taken and its
line can be written. -/
def offer (log : IncumbentLog) (writable : Bool) (i : Incumbent) : Offer × IncumbentLog :=
  if !(i.elapsed.isFinite && i.objective.isFinite && log.best.all i.succeeds) then (.refused, log)
  else if writable then (.taken, ⟨log.written ++ i.line, some i⟩)
  else (.failed, log)

end IncumbentLog

end Extraction
