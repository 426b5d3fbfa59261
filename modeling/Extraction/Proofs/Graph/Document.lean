import Extraction.Graph.Document
import Extraction.Graph.Printer
import Extraction.Proofs.Decimal.Digits
import Extraction.Proofs.Double.Laws
import Extraction.Proofs.Graph.Edit
import Extraction.Proofs.Graph.Grouping
import Extraction.Proofs.Json.RoundTrip

/-! Documents of graphs. The document that a graph is written as names its classes, its nodes and its
operators by numbers; read again, it describes a draft with the same nodes, grouped by class. -/
namespace Extraction

namespace Json

theorem record?_record {known : List String} {fields : List (String × Json)}
    (inside : ∀ f ∈ fields, f.1 ∈ known) (distinct : (fields.map Prod.fst).Nodup) :
    (record fields).record? known = some fields := by
  have named : (fields.map fun m => (some m.1, m.2)).mapM
      (fun m : Option String × Json => m.1.map fun name => (name, m.2)) = some fields := by
    rw [mapM_map_eq_some (h := id), List.map_id]
    exact fun m _ => rfl
  have chosen : fields.filter (fun m => known.contains m.1) = fields :=
    List.filter_eq_self.2 fun f mem => by simpa using inside f mem
  rw [record, record?, fields?, named, Option.bind_eq_bind, Option.bind_some, chosen, if_pos distinct]

theorem map?_record {β ν : Type} {value? : Json → Option ν} {name : β → String} {json : β → Json}
    {value : β → ν} {xs : List β} (reads : ∀ x ∈ xs, value? (json x) = some (value x)) :
    (record (xs.map fun x => (name x, json x))).map? value? =
      some (OrderedMap.ofList (xs.map fun x => (name x, value x))) := by
  rw [record, List.map_map, map?, Option.bind_eq_bind, mapM_map_eq_some, Option.bind_some]
  · rfl
  · intro x mem
    simp [reads x mem]

theorem word?_toString_word (w : UInt32) : word? (toString w.toNat) = some w.toNat :=
  word?_toString (Nat.lt_trans w.toNat_lt (by decide))

end Json

/-- A node as it stands in a document that numbers classes and operators. -/
def Node.written (node : Node Float) : DocumentNode :=
  ⟨.index node.op.value.toNat, node.children.map fun c => .number c.value.toNat,
    .number node.eclass.value.toNat, some node.cost⟩

/-- The amount is read from its numeral as it was. -/
def Readable (x : Float) : Prop := Json.double? (Layout.document.render x) = some x

theorem DocumentId.ofJson?_json (c : ClassId) : ofJson? c.json = some (.number c.value.toNat) := by
  rw [ClassId.json, Json.ofNat, ofJson?, Json.word?_toString_word]
  rfl

theorem DocumentNode.ofJson?_json {node : Node Float} (finite : node.cost.isFinite = true)
    (readable : Readable node.cost) : DocumentNode.ofJson? node.json = some node.written := by
  have fields : node.json.record? ["op", "children", "eclass", "cost"] = some [
      ("op", Json.ofNat node.op.value.toNat),
      ("children", .array (node.children.map ClassId.json)),
      ("eclass", node.eclass.json),
      ("cost", Json.ofDouble node.cost)] :=
    Json.record?_record (by simp) (show ["op", "children", "eclass", "cost"].Nodup by decide)
  have op : DocumentOp.ofJson? (Json.ofNat node.op.value.toNat) = some (.index node.op.value.toNat) := by
    rw [Json.ofNat, DocumentOp.ofJson?, Json.word?_toString_word]
    rfl
  have children : idsOfJson? (some (.array (node.children.map ClassId.json))) =
      some (node.children.map fun c => .number c.value.toNat) :=
    mapM_map_eq_some fun c _ => DocumentId.ofJson?_json c
  have cost : costOfJson? (some (Json.ofDouble node.cost)) = some (some node.cost) := by
    rw [Json.ofDouble, if_pos finite, costOfJson?, readable]
    rfl
  rw [DocumentNode.ofJson?, fields]
  simp [op, children, DocumentId.ofJson?_json, cost, Node.written, List.lookup]

theorem Json.isWritable_ofNat (n : Nat) : IsWritable (ofNat n) := isSome_numberParts?_toString n

theorem Readable.isSome_numberParts? {x : Float} (readable : Readable x) :
    (Json.numberParts? (Layout.document.render x).toList).isSome := by
  obtain ⟨parts, spelled, _⟩ := Option.bind_eq_some_iff.1 readable
  rw [spelled]
  rfl

theorem Node.isWritable_json {node : Node Float} (finite : node.cost.isFinite = true)
    (readable : Readable node.cost) : Json.IsWritable node.json := by
  refine Json.isWritable_record ?_
  simp only [List.forall_mem_cons, Json.IsWritable, Json.allWritable_iff, List.forall_mem_map,
    Json.ofDouble, if_pos finite]
  exact ⟨Json.isWritable_ofNat _, fun c _ => Json.isWritable_ofNat _, Json.isWritable_ofNat _,
    readable.isSome_numberParts?, fun _ mem => by cases mem⟩

/-- What stands in a document for the nodes of one class. -/
def writtenClass (entries : List (NodeId × Node Float)) : OrderedMap String DocumentNode :=
  .ofList (entries.map fun e => (toString e.1.index.toNat, e.2.written))

theorem opsOfJson?_names (names : List String) :
    opsOfJson? (some (.array (names.map fun name => .string (some name)))) = some (some names) := by
  simp only [opsOfJson?, Json.items?, Option.bind_eq_bind, Option.bind_some]
  rw [mapM_map_eq_some (h := id), List.map_id]
  · rfl
  · exact fun name _ => rfl

namespace EGraph

/-- The nodes of a class with their identities. -/
def entries {α : Type} [Cost α] (g : EGraph α) (c : ClassId) : List (NodeId × Node α) :=
  (g.nodes.filter fun _ node => node.eclass = c).toList

/-- The document that a graph is written as. -/
def written (g : EGraph Float) : Document where
  nodes := .ofList (g.classes.map fun c => (c.text, writtenClass (g.entries c)))
  roots := g.roots.map fun c => .number c.value.toNat
  ops := some g.ops.names

/-- Every cost is read from its numeral as it was. -/
def CostsReadable (g : EGraph Float) : Prop := ∀ e ∈ g.nodes.toList, Readable e.2.cost

variable {g : EGraph Float}

theorem mem_of_mem_entries {α : Type} [Cost α] {g : EGraph α} {c : ClassId} {e : NodeId × Node α}
    (mem : e ∈ g.entries c) : e ∈ g.nodes.toList := (OrderedMap.mem_filter.1 mem).1

theorem ofJson?_json (readable : g.CostsReadable) : Document.ofJson? g.json = some g.written := by
  have fields : g.json.record? ["nodes", "root_eclasses", "op"] = some [
      ("nodes", .record (g.classes.map fun c => (c.text, g.classJson c))),
      ("root_eclasses", .array (g.roots.map ClassId.json)),
      ("op", .array (g.ops.names.map fun name => .string (some name)))] :=
    Json.record?_record (by simp) (show ["nodes", "root_eclasses", "op"].Nodup by decide)
  have nodes (c : ClassId) : (g.classJson c).map? DocumentNode.ofJson? =
      some (writtenClass (g.entries c)) := by
    refine Json.map?_record fun e mem => ?_
    have stored := mem_of_mem_entries mem
    exact DocumentNode.ofJson?_json (g.draft.accepted e stored).finite (readable e stored)
  have classes : (Json.record (g.classes.map fun c => (c.text, g.classJson c))).map?
      (Json.map? DocumentNode.ofJson?) =
        some (.ofList (g.classes.map fun c => (c.text, writtenClass (g.entries c)))) :=
    Json.map?_record fun c _ => nodes c
  have roots : idsOfJson? (some (.array (g.roots.map ClassId.json))) =
      some (g.roots.map fun c => .number c.value.toNat) :=
    mapM_map_eq_some fun c _ => DocumentId.ofJson?_json c
  rw [Document.ofJson?, fields]
  simp [classes, roots, opsOfJson?_names, EGraph.written, List.lookup]

theorem isWritable_json (readable : g.CostsReadable) : Json.IsWritable g.json := by
  have classes (c : ClassId) : Json.IsWritable (g.classJson c) := by
    refine Json.isWritable_record fun m mem => ?_
    obtain ⟨e, listed, rfl⟩ := List.mem_map.1 mem
    have stored := mem_of_mem_entries listed
    exact Node.isWritable_json (g.draft.accepted e stored).finite (readable e stored)
  refine Json.isWritable_record ?_
  simp only [List.forall_mem_cons, Json.IsWritable, Json.allWritable_iff, List.forall_mem_map]
  refine ⟨Json.isWritable_record ?_, fun c _ => Json.isWritable_ofNat _, fun _ _ => rfl, ?_⟩
  · simp only [List.forall_mem_map]
    exact fun c _ => classes c
  · exact fun _ mem => by cases mem

end EGraph

end Extraction
