import Extraction.Graph.Draft
import Extraction.Id.Reader
import Extraction.Json.Reader
import Extraction.Text.Utf8

/-! Graphs as JSON documents. A document maps classes to indices to nodes and may list roots and
operator names. An identity is a number or a text; an operator is a name or a position in the listed
names; fields that a document does not know are passed over. -/
namespace Extraction

inductive DocumentId where
  | number (n : Nat)
  | text (text : String)
  deriving DecidableEq, Repr

inductive DocumentOp where
  | index (n : Nat)
  | name (name : String)
  deriving DecidableEq, Repr

structure DocumentNode where
  op : DocumentOp
  children : List DocumentId
  eclass : DocumentId
  cost : Option Float

structure Document where
  nodes : OrderedMap String (OrderedMap String DocumentNode)
  roots : List DocumentId
  ops : Option (List String)

inductive DocumentError where
  | unreadable
  | malformed
  | invalidId (text : String) (cause : IdError)
  | idOutOfRange (n : Nat)
  | unknownOpIndex (node : NodeId) (index : Nat) (size : Nat)
  | graph (error : GraphError Float)

def DocumentError.message : DocumentError → String
  | unreadable => "the document cannot be read"
  | malformed => "the document is malformed"
  | invalidId text _ => "invalid id " ++ Text.quoted text
  | idOutOfRange n => "id " ++ toString n ++ " does not fit in 32 bits"
  | unknownOpIndex node index size =>
    "node " ++ node.text ++ " uses op index " ++ toString index ++ ", but the op table has " ++
      toString size ++ " entries"
  | graph error => error.message

namespace Json

/-- The values of the known fields of an object. A known field may come once only, and every name must
be a text. -/
def fields? (known : List String) (members : List (Option String × Json)) :
    Option (List (String × Json)) := do
  let named ← members.mapM fun m => m.1.map fun name => (name, m.2)
  let chosen := named.filter fun m => known.contains m.1
  if (chosen.map Prod.fst).Nodup then some chosen else none

/-- The fields of a record, which is an object or an array of the fields in their order. -/
def record? (known : List String) : Json → Option (List (String × Json))
  | .object members => fields? known members
  | .array items => if items.length ≤ known.length then some (known.zip items) else none
  | _ => none

def items? : Json → Option (List Json)
  | .array items => some items
  | _ => none

/-- An object as a map. A name that comes again keeps its place and takes the later value. -/
def map? {ν : Type} (value? : Json → Option ν) : Json → Option (OrderedMap String ν)
  | .object members => do
    let entries ← members.mapM fun m => do return (← m.1, ← value? m.2)
    return OrderedMap.ofList entries
  | _ => none

end Json

def DocumentId.ofJson? : Json → Option DocumentId
  | .number lexeme => (Json.word? lexeme).map .number
  | .string written => written.map .text
  | _ => none

def DocumentOp.ofJson? : Json → Option DocumentOp
  | .number lexeme => (Json.word? lexeme).map .index
  | .string written => written.map .name
  | _ => none

/-- A list of identities, which may be left out. -/
def idsOfJson? : Option Json → Option (List DocumentId)
  | none => some []
  | some value => do (← value.items?).mapM DocumentId.ofJson?

def costOfJson? : Option Json → Option (Option Float)
  | none | some .null => some none
  | some (.number lexeme) => (Json.double? lexeme).map some
  | some _ => none

def opsOfJson? : Option Json → Option (Option (List String))
  | none | some .null => some none
  | some value => do
    let names ← (← value.items?).mapM fun item =>
      match item with
      | .string text => text
      | _ => none
    return some names

def DocumentNode.ofJson? (value : Json) : Option DocumentNode := do
  let fields ← value.record? ["op", "children", "eclass", "cost"]
  let op ← DocumentOp.ofJson? (← fields.lookup "op")
  let children ← idsOfJson? (fields.lookup "children")
  let eclass ← DocumentId.ofJson? (← fields.lookup "eclass")
  let cost ← costOfJson? (fields.lookup "cost")
  return ⟨op, children, eclass, cost⟩

namespace Document

def ofJson? (value : Json) : Option Document := do
  let fields ← value.record? ["nodes", "root_eclasses", "op"]
  let nodes ← (← fields.lookup "nodes").map? (Json.map? DocumentNode.ofJson?)
  let roots ← idsOfJson? (fields.lookup "root_eclasses")
  let ops ← opsOfJson? (fields.lookup "op")
  return ⟨nodes, roots, ops⟩

end Document

/-- The word that a text stands for where an identity is expected. -/
def readComponent (text : String) : Except DocumentError UInt32 :=
  match ClassId.read text with
  | .ok c => .ok c.value
  | .error cause => .error (.invalidId text cause)

def DocumentId.toClass : DocumentId → Except DocumentError ClassId
  | number n => if n < UInt32.size then .ok ⟨n.toUInt32⟩ else .error (.idOutOfRange n)
  | text t => (readComponent t).map ClassId.mk

/-- The operator at a position among the `size` listed names, or the one of a name, which comes in at
the end unless it is there. -/
def DocumentOp.resolve (size : Nat) (node : NodeId) (d : Draft Float) :
    DocumentOp → Except DocumentError (OpId × Draft Float)
  | index n => if n < size then .ok (⟨n.toUInt32⟩, d) else .error (.unknownOpIndex node n size)
  | name n => .ok (d.intern n)

/-- Lets a node of a document into a draft. A node without a cost costs one. -/
def Draft.addDocumentNode (size : Nat) (d : Draft Float) (id : NodeId) (node : DocumentNode) :
    Except DocumentError (Draft Float) := do
  let (op, d) ← node.op.resolve size id d
  let children ← node.children.mapM DocumentId.toClass
  let eclass ← node.eclass.toClass
  match d.addNode id ⟨op, children, eclass, node.cost.getD 1.0⟩ with
  | .ok d => return d
  | .error e => throw (.graph e)

def Draft.addDocumentClass (size : Nat) (d : Draft Float)
    (entry : String × OrderedMap String DocumentNode) : Except DocumentError (Draft Float) := do
  let owner ← readComponent entry.1
  entry.2.toList.foldlM (fun d e => do
    let index ← readComponent e.1
    d.addDocumentNode size ⟨⟨owner⟩, index⟩ e.2) d

namespace Document

/-- The draft that a document describes. What is wrong is met in the order of the document: operator
names, then the nodes, then the roots. -/
def toDraft (doc : Document) : Except DocumentError (Draft Float) := do
  let ops ← match OpTable.ofNames (doc.ops.getD []) with
    | .ok ops => pure ops
    | .error name => throw (.graph (.duplicateOp name))
  let d ← doc.nodes.toList.foldlM (Draft.addDocumentClass ops.size) (Draft.withOps ops)
  let roots ← doc.roots.mapM DocumentId.toClass
  return roots.foldl Draft.addRoot d

/-- Reads a text, in which a gap stands for an octet that is part of no character. -/
def readText (text : List (Option Char)) : Except DocumentError (Draft Float) :=
  match (Json.read? text).bind ofJson? with
  | none => .error .malformed
  | some doc => doc.toDraft

def ofFile : Option (List UInt8) → Except DocumentError (Draft Float)
  | none => .error .unreadable
  | some octets => readText (Text.Utf8.scan octets)

end Document

def Draft.ofString (text : String) : Except DocumentError (Draft Float) :=
  Document.readText (text.toList.map some)

end Extraction
