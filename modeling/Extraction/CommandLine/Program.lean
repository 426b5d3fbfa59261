import Extraction.CommandLine.Arguments
import Extraction.CommandLine.Host
import Extraction.CommandLine.Report
import Extraction.Decision
import Extraction.Extract
import Extraction.Graph.Document
import Extraction.Graph.Redundancy
import Extraction.Incumbent
import Extraction.Settings.File

/-! The command line: it loads a graph, extracts from it, and writes what was asked for. The first thing
that goes wrong ends the program; files written before stay. -/
namespace Extraction.CommandLine

/-- How the program ends. Arguments that are not usable end it with status 2 and any other failure with
status 1. -/
inductive Ending where
  | unusable
  | failed (message : String)
  | done (output : String)

def Ending.status : Ending → Nat
  | unusable => 2
  | failed _ => 1
  | done _ => 0

variable {m : Type → Type} [Monad m] [Host m]

abbrev Task (m : Type → Type) := ExceptT String m

def fail {α : Type} (message : String) : Task m α := throw message

/-- Goes on with a value or fails with the message of what is wrong. -/
def orFail {α ε : Type} (message : ε → String) : Except ε α → Task m α
  | .ok a => pure a
  | .error e => throw (message e)

def orFailWith {α ε : Type} (message : String) (result : Except ε α) : Task m α :=
  orFail (fun _ => message) result

def readFile (path : String) : Task m (Option (List UInt8)) := (Host.read path : m _)

def writeFile (verb path content : String) : Task m Unit := do
  if ← (Host.write path content : m _) then return ()
  else fail ("failed to " ++ verb ++ " " ++ path)

def appendFile (path content : String) : Task m Unit := do
  if ← (Host.append path content : m _) then return ()
  else fail ("failed to open " ++ path)

def seconds (nanoseconds : Nat) : Float :=
  Float.ofNat (nanoseconds / 1000000000) + Float.ofNat (nanoseconds % 1000000000) / 1000000000.0

def elapsedSince (start : Nat) : Task m Nat := do
  let now ← (Host.now : m _)
  return now - start

/-- The settings of the file, if there is one, with what the arguments say instead. -/
def settingsOf (a : Arguments) : Task m Settings := do
  let fromFile ←
    match a.config with
    | none => pure {}
    | some path =>
      match ← readFile path with
      | none => fail ("failed to read " ++ path)
      | some octets =>
        match Settings.ofOctets octets with
        | .ok s => pure s
        | .error .unreadable => fail ("failed to read " ++ path)
        | .error .malformed => fail ("failed to parse " ++ path)
        | .error (.settings e) => fail e.message
  let s := a.apply fromFile
  orFail SettingsError.message s.validate
  return s

def load (path : String) : Task m (Draft Float) := do
  orFailWith ("failed to load " ++ path) (Document.ofFile (← readFile path))

def costsOf (s : Selection Float) (g : EGraph Float) : Task m Costs := do
  let tree ← orFail CheckError.message (s.treeCost g g.roots)
  let dag ← orFail CheckError.message (s.dagCost g g.roots)
  let depth ← orFail CheckError.message (s.depth g g.roots)
  return ⟨tree, dag, depth⟩

/-- The costs of the selection that a solver decided on. -/
def importSolution (path : String) (g : EGraph Float) : Task m Costs := do
  let decisions ←
    match ← readFile path with
    | none => fail ("failed to read " ++ path)
    | some octets => orFailWith ("failed to read " ++ path) (Decision.ofOctets octets)
  let s ← orFail DecisionError.message (Decision.toSelection decisions g)
  orFailWith (path ++ " is not a valid extraction") (s.check g)
  costsOf s g

/-- Writes the nodes to rule out, if asked for, and counts them. -/
def writeZeroNodes (path : Option String) (s : Selection Float) (settings : Settings) :
    Task m (Option Nat) := do
  match path with
  | none => return none
  | some path =>
    let bound ← orFail SettingsError.message settings.zeroNodeBound
    let zero := s.zeroNodes bound
    writeFile "write" path (Decision.render (Decision.rulingOut zero))
    return some zero.length

/-- Adds the incumbents of this extraction to a log. -/
def logCosts (path : String) (start elapsed : Nat) (dagCost : Float) (solution : Option Costs) :
    Task m Unit := do
  appendFile path ""
  let (_, log) := IncumbentLog.empty.offer true ⟨seconds elapsed, dagCost⟩
  let log ←
    match solution with
    | none => pure log
    | some c =>
      let later ← elapsedSince start
      pure (log.offer true ⟨seconds later, c.dag⟩).2
  appendFile path log.written

def appendRow (path : String) (s : Summary) : Task m Unit := do
  let content ← readFile path
  appendFile path (s.rows (content.all List.isEmpty))

def perform (a : Arguments) : Task m String := do
  let settings ← settingsOf a
  let start ← (Host.now : m _)
  let draft ← load a.input
  let (removed, kept) ←
    if settings.canonicalize then orFail UnknownNode.message draft.removeRedundant
    else pure (0, draft)
  let g ← orFail GraphError.message kept.toGraph
  if g.roots.isEmpty then fail (a.input ++ " declares no root classes")
  let begun ← (Host.now : m _)
  let poll (_ : Nat) : m Bool := do
    return spent settings.timeoutSecs ((← Host.now) - begun)
  let extracted ← (settings.extract g g.roots poll : m _)
  let s ← orFail ExtractError.message extracted
  let elapsed ← elapsedSince start
  orFailWith "extraction produced an invalid result" (s.check g)
  let costs ← costsOf s g
  if let some path := a.warmStart then
    let decisions ← orFail CheckError.message (Decision.warmStart s g)
    writeFile "write" path (Decision.render decisions)
  let zeroNodes ← writeZeroNodes a.zeroNodes s settings
  let solution ← a.solution.mapM fun path => importSolution path g
  if let some path := a.costLog then logCosts path start elapsed costs.dag solution
  let summary : Summary := {
    input := a.input
    extractor := settings.extractor
    nodes := g.nodes.size
    classes := g.classes.length
    roots := g.roots.length
    removed
    chosen := s.choices.size
    costs
    elapsedSecs := seconds elapsed
    zeroNodes
    solution
  }
  if let some path := a.csv then appendRow path summary
  match a.output with
  | some path =>
    writeFile "create" path summary.text
    return ""
  | none => return summary.text

def run (arguments : List String) : m Ending := do
  match Arguments.read? arguments with
  | none => return .unusable
  | some a =>
    match ← (perform a).run with
    | .ok output => return .done output
    | .error message => return .failed message

end Extraction.CommandLine
