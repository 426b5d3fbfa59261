import Extraction.Graph.Sealed
import Extraction.Json.Printer

/-! Writing a sealed graph as a JSON document. Classes come in the order of their first nodes, nodes in
storage order, and operators are given by position in the listed names. -/
namespace Extraction

def ClassId.json (c : ClassId) : Json := Json.ofNat c.value.toNat

/-- A double in a document. One that is not finite has no numeral. -/
def Json.ofDouble (x : Float) : Json :=
  if x.isFinite then .number (Layout.document.render x) else .null

def Node.json (node : Node Float) : Json :=
  .record [
    ("op", Json.ofNat node.op.value.toNat),
    ("children", .array (node.children.map ClassId.json)),
    ("eclass", node.eclass.json),
    ("cost", Json.ofDouble node.cost)]

namespace EGraph

def classJson (g : EGraph Float) (c : ClassId) : Json :=
  .record ((g.nodes.filter fun _ node => node.eclass = c).toList.map fun e =>
    (toString e.1.index.toNat, e.2.json))

def json (g : EGraph Float) : Json :=
  .record [
    ("nodes", .record (g.classes.map fun c => (c.text, g.classJson c))),
    ("root_eclasses", .array (g.roots.map ClassId.json)),
    ("op", .array (g.ops.names.map fun name => .string (some name)))]

def document (g : EGraph Float) : String := g.json.pretty

end EGraph

end Extraction
