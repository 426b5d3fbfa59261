import Extraction.Decimal.Layout

/-! What can be set for an extraction. -/
namespace Extraction

inductive Extractor where
  | greedyDag
  | parallelGreedyDag
  | bottomUp
  | astDepth
  deriving DecidableEq, Repr, Inhabited

namespace Extractor

def all : List Extractor := [greedyDag, parallelGreedyDag, bottomUp, astDepth]

def name : Extractor → String
  | greedyDag => "greedy-dag"
  | parallelGreedyDag => "parallel-greedy-dag"
  | bottomUp => "bottom-up"
  | astDepth => "ast-depth"

def ofName? (name : String) : Option Extractor := all.find? fun e => e.name = name

theorem ofName?_name (e : Extractor) : ofName? e.name = some e := by cases e <;> decide

end Extractor

structure Settings where
  extractor : Extractor := .greedyDag
  /-- How often the greedy ways go through all nodes. -/
  passes : Nat := 1
  /-- Whether a node with a single child may be rejected without its bill. -/
  pruneSingleChild : Bool := true
  /-- How many threads may evaluate a round. The result does not depend on it. -/
  threads : Option Nat := none
  /-- How many nodes are evaluated in a round. -/
  batchSize : Nat := 8192
  timeoutSecs : Option Nat := none
  /-- Whether redundant nodes are dropped first. -/
  canonicalize : Bool := true
  /-- The factor by which a node may exceed the best of its class before it is ruled out. -/
  bound : Float := 1.25

instance : Inhabited Settings := ⟨{}⟩

inductive SettingsError where
  | noPasses
  | emptyBatch
  | noThreads
  | invalidBound (bound : Float)

def SettingsError.message : SettingsError → String
  | noPasses => "passes must be at least 1"
  | emptyBatch => "batch_size must be at least 1"
  | noThreads => "threads must be at least 1 when given"
  | invalidBound bound =>
    "bound must be a finite number >= 1, got " ++ Layout.plain.render bound

namespace Settings

def zeroNodeBound (s : Settings) : Except SettingsError Float :=
  if s.bound.isFinite && !(s.bound < 1.0) then .ok s.bound else .error (.invalidBound s.bound)

def validate (s : Settings) : Except SettingsError Unit :=
  if s.passes = 0 then .error .noPasses
  else if s.batchSize = 0 then .error .emptyBatch
  else if s.threads = some 0 then .error .noThreads
  else s.zeroNodeBound.map fun _ => ()

end Settings

end Extraction
