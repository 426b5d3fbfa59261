import Extraction.Proofs.Graph.Document
import Extraction.Proofs.Graph.Loading

/-! Graphs written as documents and loaded again. The draft that comes back has the nodes grouped by class;
that changes neither the classes nor the order inside them, and the second document is the first. -/
namespace Extraction

namespace OpTable

/-- Distinct names come in one after the other. -/
theorem exists_foldlM_append {names : List String} {before : OpTable}
    (distinct : (before.names ++ names).Nodup) :
    ∃ t : OpTable, names.foldlM (fun t name =>
      if h : name ∈ t.names then Except.error name else .ok (t.append name h)) before = .ok t ∧
        t.names = before.names ++ names := by
  induction names generalizing before with
  | nil => exact ⟨before, rfl, (List.append_nil _).symm⟩
  | cons name names ih =>
    have fresh : name ∉ before.names := fun mem =>
      (List.nodup_append.1 distinct).2.2 _ mem _ List.mem_cons_self rfl
    have shifted : (before.append name fresh).names ++ names = before.names ++ name :: names :=
      List.append_assoc _ [name] names
    obtain ⟨t, ok, listed⟩ := ih (by rwa [shifted])
    refine ⟨t, ?_, listed.trans shifted⟩
    rw [List.foldlM_cons, dif_neg fresh]
    exact ok

theorem ofNames_names (t : OpTable) : ofNames t.names = .ok t := by
  obtain ⟨t', ok, listed⟩ := @exists_foldlM_append t.names empty t.nodup
  rw [ofNames, ok, ext listed]

end OpTable

theorem readComponent_toString (w : UInt32) : readComponent (toString w.toNat) = .ok w := by
  rw [readComponent, ClassId.read_toString]

theorem DocumentId.toClass_number (c : ClassId) : toClass (.number c.value.toNat) = .ok c := by
  rw [toClass, if_pos c.value.toNat_lt]
  rw [show c.value.toNat.toUInt32 = c.value from UInt32.ofNat_toNat]

theorem mapM_toClass (cs : List ClassId) :
    (cs.map fun c => DocumentId.number c.value.toNat).mapM DocumentId.toClass = .ok cs := by
  induction cs with
  | nil => rfl
  | cons c cs ih =>
    rw [List.map_cons, List.mapM_cons, DocumentId.toClass_number, ih]
    rfl

namespace Draft

/-- A node that a draft with the same operators holds is let in under its identity unless that is taken. -/
theorem exists_addDocumentNode {ops : OpTable} {next : Std.TreeMap ClassId UInt32}
    {e : NodeId × Node Float} (accepted : Accepted ops next e.1 e.2) {d : Draft Float} (known : d.ops = ops)
    (fresh : e.1 ∉ d.nodes.keys) :
    ∃ d' : Draft Float, d.addDocumentNode ops.size e.1 e.2.written = .ok d' ∧ d.Adds d' [e] ∧
      d'.ops = ops := by
  obtain ⟨name, held⟩ := Option.isSome_iff_exists.1 accepted.known
  have position : e.2.op.value.toNat < ops.size := (List.getElem?_eq_some_iff.1 held).1
  have resolved : DocumentOp.resolve ops.size e.1 d e.2.written.op = .ok (e.2.op, d) := by
    rw [Node.written, DocumentOp.resolve, if_pos position]
    rw [show e.2.op.value.toNat.toUInt32 = e.2.op.value from UInt32.ofNat_toNat]
  have admits : d.Admits e.1 e.2 :=
    { number := (OrderedCost.nonnegative_of_finite accepted.finite accepted.nonnegative).1
      owner := accepted.owner
      finite := accepted.finite
      nonnegative := accepted.nonnegative
      last := by
        intro last
        have below := UInt32.lt_iff_toNat_lt.1 accepted.indexed
        rw [last] at below
        have := UInt32.toNat_lt (next.getD e.1.owner 0)
        simp only [UInt32.reduceToNat] at below
        omega
      known := by
        rw [known]
        exact accepted.known
      fresh := fresh }
  obtain ⟨d', added⟩ : ∃ d', d.addNode e.1 e.2 = .ok d' := ⟨_, addNode_eq_ok_iff.2 ⟨admits, rfl⟩⟩
  refine ⟨d', ?_, Adds.of_addNode added, ?_⟩
  · rw [addDocumentNode, resolved]
    change (e.2.written.children.mapM DocumentId.toClass >>= _) = _
    rw [Node.written, mapM_toClass]
    change (DocumentId.toClass (.number e.2.eclass.value.toNat) >>= _) = _
    rw [DocumentId.toClass_number]
    simp only [bind, Except.bind, Option.getD_some, added]
    rfl
  · obtain ⟨_, rfl⟩ := addNode_eq_ok_iff.1 added
    exact known

end Draft

namespace EGraph
variable {g : EGraph Float}

theorem nodup_entries {α : Type} [Cost α] (g : EGraph α) (c : ClassId) : ((g.entries c).map Prod.fst).Nodup :=
  OrderedMap.nodup _

theorem owner_of_mem_entries {α : Type} [Cost α] {g : EGraph α} {c : ClassId} {e : NodeId × Node α}
    (mem : e ∈ g.entries c) : e.1.owner = c := by
  obtain ⟨stored, own⟩ := OrderedMap.mem_filter.1 mem
  rw [(g.draft.accepted e stored).owner]
  exact of_decide_eq_true own

/-- The nodes of a class are told apart by what stands for their indices. -/
theorem toList_writtenClass (g : EGraph Float) (c : ClassId) : (writtenClass (g.entries c)).toList =
    (g.entries c).map fun e => (toString e.1.index.toNat, e.2.written) := by
  refine OrderedMap.toList_ofList ?_
  have names : ((g.entries c).map fun e => (toString e.1.index.toNat, e.2.written)).map Prod.fst =
      ((g.entries c).map Prod.fst).map fun id => toString id.index.toNat := by
    simp only [List.map_map]
    rfl
  rw [names]
  refine (g.nodup_entries c).map_on fun id mem id' mem' same => ?_
  obtain ⟨e, listed, rfl⟩ := List.mem_map.1 mem
  obtain ⟨e', listed', rfl⟩ := List.mem_map.1 mem'
  have owner := (owner_of_mem_entries listed).trans (owner_of_mem_entries listed').symm
  exact NodeId.mk.injEq .. ▸ ⟨owner, toString_toNat_inj.1 same⟩

theorem toList_writtenNodes (g : EGraph Float) : g.written.nodes.toList =
    g.classes.map fun c => (c.text, writtenClass (g.entries c)) := by
  refine OrderedMap.toList_ofList ?_
  rw [List.map_map]
  refine g.nodup_classes.map fun c c' same => ?_
  exact congrArg ClassId.mk (toString_toNat_inj.1 same)

theorem exists_addDocumentClass (g : EGraph Float) (c : ClassId) {d : Draft Float} (known : d.ops = g.ops)
    (distinct : (d.nodes.keys ++ (g.entries c).map Prod.fst).Nodup) :
    ∃ d' : Draft Float, d.addDocumentClass g.ops.size (c.text, writtenClass (g.entries c)) = .ok d' ∧
      d.Adds d' (g.entries c) ∧ d'.ops = g.ops := by
  have step : ∀ e ∈ g.entries c, ∀ d : Draft Float, d.ops = g.ops →
      (d.nodes.keys ++ [e].map Prod.fst).Nodup → ∃ d' : Draft Float, (do
        let index ← readComponent (toString e.1.index.toNat)
        d.addDocumentNode g.ops.size ⟨⟨c.value⟩, index⟩ e.2.written) = .ok d' ∧ d.Adds d' [e] ∧
          d'.ops = g.ops := by
    intro e mem d known distinct
    have fresh : e.1 ∉ d.nodes.keys := fun taken =>
      (List.nodup_append.1 distinct).2.2 _ taken _ List.mem_cons_self rfl
    have accepted := g.draft.accepted e (mem_of_mem_entries mem)
    rw [readComponent_toString, ← owner_of_mem_entries mem]
    exact Draft.exists_addDocumentNode accepted known fresh
  obtain ⟨d', ok, adds, known'⟩ := exists_foldlM_adds step known (by rwa [List.flatMap_singleton'])
  rw [List.flatMap_singleton'] at adds
  refine ⟨d', ?_, adds, known'⟩
  rw [Draft.addDocumentClass, ClassId.text, readComponent_toString]
  change (writtenClass (g.entries c)).toList.foldlM _ d = _
  rw [toList_writtenClass, List.foldlM_map]
  exact ok

/-- The document of a graph loads as a draft that has the nodes class by class. -/
theorem exists_toDraft_written (g : EGraph Float) :
    ∃ d, g.written.toDraft = .ok d ∧ d.Regroups g := by
  have perm : (g.classes.flatMap g.entries).Perm g.nodes.toList :=
    regroup_perm g.nodup_classes fun e => eclass_mem_classes
  have distinct : ((Draft.withOps g.ops : Draft Float).nodes.keys ++
      (g.classes.flatMap g.entries).map Prod.fst).Nodup :=
    (perm.map Prod.fst).nodup_iff.2 g.nodes.nodup
  have start : (Draft.withOps g.ops : Draft Float).ops = g.ops := rfl
  obtain ⟨d, loaded, adds, known⟩ := exists_foldlM_adds
    (fun c _ d known distinct => g.exists_addDocumentClass c known distinct) start distinct
  have roots : g.written.roots.mapM DocumentId.toClass = .ok g.roots := mapM_toClass g.roots
  refine ⟨g.roots.foldl Draft.addRoot d, Document.toDraft_eq_ok_iff.2
    ⟨g.ops, d, g.roots, g.ops.ofNames_names, ?_, roots, rfl⟩, ?_⟩
  · rw [toList_writtenNodes, List.foldlM_map]
    exact loaded
  · rw [Draft.foldl_addRoot]
    exact ⟨adds.nodes, congrArg (· ++ g.roots) adds.roots, known⟩

end EGraph

namespace Draft

/-- The ways in which a draft comes about: without nodes, with or without operator names, or as the content of
a document. -/
inductive Begins : Draft Float → Prop
  | empty : Begins ∅
  | withOps (ops : OpTable) : Begins (.withOps ops)
  | loaded {text : List (Option Char)} {d : Draft Float} (ok : Document.readText text = .ok d) : Begins d

theorem Begins.tight {d : Draft Float} (begins : d.Begins) : d.Tight := by
  cases begins with
  | empty => exact tight_withOps ∅
  | withOps ops => exact tight_withOps ops
  | loaded ok =>
    obtain ⟨_, _, _, _, ok⟩ := Document.readText_eq_ok_iff.1 ok
    exact (Document.spelled_of_toDraft ok).2

/-- Drafts with the same nodes, roots, operators and next indices hold the same. -/
theorem sameAs_of_perm {d e : Draft Float} (nodes : d.nodes.toList.Perm e.nodes.toList)
    (roots : d.roots = e.roots) (ops : d.ops = e.ops)
    (next : ∀ c, d.nextIndex.get? c = e.nextIndex.get? c) : d.sameAs e = true := by
  have size : d.nodes.size = e.nodes.size := nodes.length_eq
  have indices : d.nextIndex.toList = e.nextIndex.toList :=
    (Std.TreeMap.Equiv.of_forall_constGet?_eq next).toList_eq
  have held : ∀ entry ∈ d.nodes.toList, e.node? entry.1 = some entry.2 := fun entry mem =>
    OrderedMap.get?_eq_some_iff.2 (nodes.mem_iff.1 mem)
  simp only [sameAs, size, roots, ops, indices, Bool.and_eq_true, decide_true, List.all_eq_true,
    beq_self_eq_true, true_and, and_true]
  refine ⟨fun entry mem => ?_, by simp [OpTable.sameNames]⟩
  have finite : entry.2.cost.isFinite = true := (d.accepted entry mem).finite
  simp only [held entry mem, Option.any_some, decide_true, Bool.and_self, Bool.true_and,
    Float.beq_self_iff]
  intro nan
  rw [nan] at finite
  cases finite

end Draft

/-- A graph that is written and loaded again comes back with its nodes, roots and operators; it seals, its
classes and their members are in the order in which they were, and it is written as the same text. If no node
was ever taken out of the draft behind it, it is the same graph, next indices included. -/
theorem EGraph.document_restores (g : EGraph Float) (readable : g.CostsReadable) :
    ∃ (d : Draft Float) (g' : EGraph Float), Draft.ofString g.document = .ok d ∧
      d.nodes.toList.Perm g.nodes.toList ∧ d.roots = g.roots ∧ d.ops = g.ops ∧
      d.toGraph = .ok g' ∧ g'.classes = g.classes ∧ (∀ c, g'.membersOf c = g.membersOf c) ∧
      g'.document = g.document ∧
      ∀ (start : Draft Float) (edits : List (Edit Float)), start.Begins → start.Growing edits →
        g.draft = start.edited edits → g'.draft.sameAs g.draft = true ∧
          ∀ c, g'.draft.nextIndex.get? c = g.draft.nextIndex.get? c := by
  obtain ⟨d, loaded, regroups⟩ := g.exists_toDraft_written
  obtain ⟨g', sealed⟩ := regroups.exists_toGraph
  obtain rfl := Draft.toGraph_eq_ok_iff.1 sealed
  have read : Draft.ofString g.document = .ok g'.draft := Document.readText_eq_ok_iff.2
    ⟨g.json, g.written, Json.read?_pretty (isWritable_json readable), ofJson?_json readable, loaded⟩
  have classes : g'.classes = g.classes := by
    rw [g'.classes_eq]
    exact regroups.classes
  refine ⟨g'.draft, g', read, regroups.perm, regroups.roots, regroups.ops, sealed, classes,
    regroups.membersOf, ?_, ?_⟩
  · have entries (c : ClassId) : g'.classJson c = g.classJson c := by
      rw [classJson, nodes, regroups.entries]
      rfl
    have roots : g'.roots = g.roots := regroups.roots
    have ops : g'.ops = g.ops := regroups.ops
    simp only [document, json, classes, entries, roots, ops]
  · intro start edits begins growing same
    have tight : g.draft.Tight := by
      rw [same]
      exact growing.tight begins.tight
    have keys (id : NodeId) : id ∈ g'.draft.nodes.keys ↔ id ∈ g.draft.nodes.keys :=
      (regroups.perm.map Prod.fst).mem_iff
    have next := (Document.spelled_of_toDraft loaded).2.get?_eq tight keys
    exact ⟨Draft.sameAs_of_perm regroups.perm regroups.roots regroups.ops next, next⟩

section Interleaved
set_option maxRecDepth 100000

/-- Nodes of two classes that come in by turns. -/
def interleavedEdits : List (Edit Float) :=
  [.push ⟨1⟩ "f" [⟨0⟩] 0.5, .push ⟨0⟩ "x" [] 1.0, .push ⟨1⟩ "g" [⟨0⟩, ⟨0⟩] 2.25, .intern "h", .addRoot ⟨1⟩]

def interleavedGraph : EGraph Float :=
  ((∅ : Draft Float).edited interleavedEdits).toGraph.toOption.get (by decide +kernel)

theorem interleavedGraph_restores : ∃ (d : Draft Float) (g' : EGraph Float),
    Draft.ofString interleavedGraph.document = .ok d ∧ d.toGraph = .ok g' ∧
      d.nodes.toList.Perm interleavedGraph.nodes.toList ∧
      g'.document = interleavedGraph.document ∧ g'.draft.sameAs interleavedGraph.draft = true := by
  have readable : interleavedGraph.CostsReadable := by
    unfold EGraph.CostsReadable Readable
    decide +kernel
  have growing : (∅ : Draft Float).Growing interleavedEdits :=
    ⟨by decide +kernel, by decide +kernel, by decide +kernel, by decide +kernel, by decide +kernel, trivial⟩
  have history : interleavedGraph.draft = (∅ : Draft Float).edited interleavedEdits :=
    Draft.toGraph_eq_ok_iff.1 (ok_get_toOption _)
  obtain ⟨d, g', read, nodes, _, _, sealed, _, _, again, same⟩ :=
    interleavedGraph.document_restores readable
  exact ⟨d, g', read, sealed, nodes, again, (same ∅ interleavedEdits .empty growing history).1⟩

end Interleaved

end Extraction
