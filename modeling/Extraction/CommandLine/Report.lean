import Extraction.Graph.Printer
import Extraction.Settings

/-! What the command line reports: a summary as JSON, and a row of a table of comma-separated values. -/
namespace Extraction.CommandLine

structure Costs where
  tree : Float
  dag : Float
  depth : Nat

structure Summary where
  input : String
  extractor : Extractor
  nodes : Nat
  classes : Nat
  roots : Nat
  removed : Nat
  chosen : Nat
  costs : Costs
  elapsedSecs : Float
  zeroNodes : Option Nat
  solution : Option Costs

namespace Costs

def members (c : Costs) : List (String × Json) :=
  [("tree_cost", Json.ofDouble c.tree), ("dag_cost", Json.ofDouble c.dag),
    ("depth", Json.ofNat c.depth)]

end Costs

namespace Summary

def json (s : Summary) : Json :=
  .record ([
    ("input", .string (some s.input)),
    ("extractor", .string (some s.extractor.name)),
    ("nodes", Json.ofNat s.nodes),
    ("classes", Json.ofNat s.classes),
    ("roots", Json.ofNat s.roots),
    ("removed", Json.ofNat s.removed),
    ("chosen", Json.ofNat s.chosen)] ++ s.costs.members ++ [
    ("elapsed_secs", Json.ofDouble s.elapsedSecs),
    ("zero_nodes", (s.zeroNodes.map Json.ofNat).getD .null),
    ("solution", (s.solution.map fun c => .record c.members).getD .null)])

def text (s : Summary) : String := s.json.pretty ++ "\n"

end Summary

/-- A cell of a row. It stands in quotes, with quotes inside doubled, where it could be misread. -/
def cellText (cell : String) : String :=
  if cell.toList.any fun c => c = ',' || c = '"' || c = '\n' || c = '\r' then
    "\"" ++ String.ofList (cell.toList.flatMap fun c => if c = '"' then ['"', '"'] else [c]) ++ "\""
  else cell

def rowText (cells : List String) : String := String.intercalate "," (cells.map cellText) ++ "\n"

def headings : List String :=
  ["input", "extractor", "nodes", "classes", "removed", "tree_cost", "dag_cost", "depth",
    "elapsed_secs", "solution_dag_cost"]

def Summary.cells (s : Summary) : List String :=
  [s.input, s.extractor.name, toString s.nodes, toString s.classes, toString s.removed,
    Layout.cell.render s.costs.tree, Layout.cell.render s.costs.dag, toString s.costs.depth,
    Layout.cell.render s.elapsedSecs,
    (s.solution.map fun c => Layout.cell.render c.dag).getD ""]

/-- The row of a summary, after the headings if it is the first. -/
def Summary.rows (s : Summary) (first : Bool) : String :=
  (if first then rowText headings else "") ++ rowText s.cells

end Extraction.CommandLine
