import Extraction.Graph.Document
import Extraction.Proofs.Graph.Growth
import Mathlib.Data.List.Forall2

/-! Loading documents. Each node of a document is let in behind the nodes before it, under the identity that
its keys spell; nothing else touches the nodes, and so a document that loads has one node for each entry. -/
namespace Extraction

variable {α : Type} [Cost α]

/-- What loading nodes does to a draft: they stand at the end, in their order. -/
structure Draft.Adds (d d' : Draft α) (entries : List (NodeId × Node α)) : Prop where
  nodes : d'.nodes.toList = d.nodes.toList ++ entries
  roots : d'.roots = d.roots
  next : d'.nextIndex =
    (entries.map Prod.fst).foldl (fun next id => useIndex next id.owner (id.index + 1)) d.nextIndex

namespace Draft.Adds
variable {d d' d'' : Draft α} {entries more : List (NodeId × Node α)}

theorem refl (d : Draft α) : d.Adds d [] := ⟨(List.append_nil _).symm, rfl, rfl⟩

theorem trans (first : d.Adds d' entries) (second : d'.Adds d'' more) :
    d.Adds d'' (entries ++ more) where
  nodes := by rw [second.nodes, first.nodes, List.append_assoc]
  roots := second.roots.trans first.roots
  next := by rw [second.next, first.next, List.map_append, List.foldl_append]

theorem of_addNode {id : NodeId} {node : Node α} (ok : d.addNode id node = .ok d') :
    d.Adds d' [(id, node)] := by
  obtain ⟨h, rfl⟩ := addNode_eq_ok_iff.1 ok
  exact ⟨OrderedMap.toList_insert_of_notMem node h.fresh, rfl, rfl⟩

theorem of_addOp {name : String} (adds : (d.addOp name).Adds d' entries) : d.Adds d' entries :=
  ⟨adds.nodes, adds.roots, adds.next⟩

theorem keys (adds : d.Adds d' entries) : d'.nodes.keys = d.nodes.keys ++ entries.map Prod.fst := by
  rw [OrderedMap.keys, adds.nodes, List.map_append]
  rfl

theorem tight (adds : d.Adds d' entries) (tight : d.Tight) : d'.Tight := by
  rw [Tight, adds.keys, adds.next]
  exact TightOver.foldl_use tight

end Draft.Adds

section Folds
variable {β ε : Type} {f : Draft α → β → Except ε (Draft α)}

/-- Nodes that are added step by step where every step can be done. -/
theorem exists_foldlM_adds {added : β → List (NodeId × Node α)} {ops : OpTable} {xs : List β}
    (step : ∀ x ∈ xs, ∀ d : Draft α, d.ops = ops →
      (d.nodes.keys ++ (added x).map Prod.fst).Nodup →
        ∃ d', f d x = .ok d' ∧ d.Adds d' (added x) ∧ d'.ops = ops)
    {d : Draft α} (known : d.ops = ops)
    (distinct : (d.nodes.keys ++ (xs.flatMap added).map Prod.fst).Nodup) :
    ∃ d' : Draft α, xs.foldlM f d = .ok d' ∧ d.Adds d' (xs.flatMap added) ∧ d'.ops = ops := by
  induction xs generalizing d with
  | nil => exact ⟨d, rfl, .refl d, known⟩
  | cons x xs ih =>
    obtain ⟨first, others⟩ := List.forall_mem_cons.1 step
    rw [List.flatMap_cons, List.map_append, ← List.append_assoc] at distinct
    obtain ⟨d₁, ok, adds, known⟩ := first d known (List.nodup_append.1 distinct).1
    rw [← adds.keys] at distinct
    obtain ⟨d₂, done, more, known⟩ := ih others known distinct
    refine ⟨d₂, ?_, adds.trans more, known⟩
    rw [List.foldlM_cons, ok]
    exact done

/-- What is added by steps that succeeded, each of which is known to have added something of a kind. -/
theorem adds_of_foldlM {R : β → List (NodeId × Node α) → Prop}
    (step : ∀ d x d', f d x = .ok d' → ∃ entries, R x entries ∧ d.Adds d' entries) {xs : List β}
    {d d' : Draft α} (ok : xs.foldlM f d = .ok d') :
    ∃ parts, List.Forall₂ R xs parts ∧ d.Adds d' parts.flatten := by
  induction xs generalizing d with
  | nil =>
    cases ok
    exact ⟨[], .nil, .refl _⟩
  | cons x xs ih =>
    obtain ⟨d₁, first, rest⟩ := exists_of_bind_eq_ok ok
    obtain ⟨entries, related, adds⟩ := step d x d₁ first
    obtain ⟨parts, others, more⟩ := ih rest
    exact ⟨entries :: parts, .cons related others, adds.trans more⟩

end Folds

/-- The identity that the key of a class and the key of a node in it spell. -/
def spelled? (keys : String × String) : Option NodeId := do
  let owner ← (readComponent keys.1).toOption
  let index ← (readComponent keys.2).toOption
  return ⟨⟨owner⟩, index⟩

/-- Values along lists that stand side by side make up the values along all of them. -/
theorem mapM_flatMap {β γ κ ν : Type} {f : κ → Option ν} {g : β → List κ} {key : γ → ν} {xs : List β}
    {parts : List (List γ)}
    (each : List.Forall₂ (fun x part => (g x).mapM f = some (part.map key)) xs parts) :
    (xs.flatMap g).mapM f = some (parts.flatten.map key) := by
  induction each with
  | nil => rfl
  | cons first _ ih => simp [List.mapM_append, first, ih]

namespace Draft

theorem adds_of_addDocumentNode {size : Nat} {d d' : Draft Float} {id : NodeId} {node : DocumentNode}
    (ok : d.addDocumentNode size id node = .ok d') : ∃ node', d.Adds d' [(id, node')] := by
  obtain ⟨⟨op, d₁⟩, resolved, ok⟩ := exists_of_bind_eq_ok ok
  obtain ⟨children, _, ok⟩ := exists_of_bind_eq_ok ok
  obtain ⟨eclass, _, ok⟩ := exists_of_bind_eq_ok ok
  split at ok
  · rename_i added
    cases ok
    have adds := Adds.of_addNode added
    refine ⟨⟨op, children, eclass, node.cost.getD 1.0⟩, ?_⟩
    unfold DocumentOp.resolve at resolved
    split at resolved
    · split at resolved <;> cases resolved
      exact adds
    · cases resolved
      exact adds.of_addOp
  · cases ok

theorem adds_of_addDocumentClass {size : Nat} {d d' : Draft Float}
    {entry : String × OrderedMap String DocumentNode} (ok : d.addDocumentClass size entry = .ok d') :
    ∃ entries, (entry.2.toList.map fun e => (entry.1, e.1)).mapM spelled? = some (entries.map Prod.fst) ∧
      d.Adds d' entries := by
  obtain ⟨owner, read, ok⟩ := exists_of_bind_eq_ok ok
  have step : ∀ (d : Draft Float) (e : String × DocumentNode) (d' : Draft Float), (do
      let index ← readComponent e.1
      d.addDocumentNode size ⟨⟨owner⟩, index⟩ e.2) = .ok d' →
        ∃ entries : List (NodeId × Node Float), [(entry.1, e.1)].mapM spelled? =
          some (entries.map Prod.fst) ∧ d.Adds d' entries := by
    intro d e d' ok
    obtain ⟨index, read', ok⟩ := exists_of_bind_eq_ok ok
    obtain ⟨node, adds⟩ := adds_of_addDocumentNode ok
    have spelled : spelled? (entry.1, e.1) = some ⟨⟨owner⟩, index⟩ := by
      simp [spelled?, read, read', Except.toOption]
    refine ⟨_, ?_, adds⟩
    simp [spelled]
  obtain ⟨parts, related, adds⟩ := adds_of_foldlM step ok
  refine ⟨parts.flatten, ?_, adds⟩
  rw [List.map_eq_flatMap]
  exact mapM_flatMap related

theorem foldl_addRoot (roots : List ClassId) (d : Draft α) :
    roots.foldl addRoot d = { d with roots := d.roots ++ roots } := by
  induction roots generalizing d with
  | nil => rw [List.append_nil]; rfl
  | cons c roots ih =>
    rw [List.foldl_cons, ih]
    simp only [addRoot, List.append_assoc, List.singleton_append]

end Draft

/-- A document loads in three steps: its operator names, its nodes and its roots. -/
theorem Document.toDraft_eq_ok_iff {doc : Document} {d : Draft Float} :
    doc.toDraft = .ok d ↔ ∃ ops d₁ roots, OpTable.ofNames (doc.ops.getD []) = .ok ops ∧
      doc.nodes.toList.foldlM (Draft.addDocumentClass ops.size) (Draft.withOps ops) = .ok d₁ ∧
      doc.roots.mapM DocumentId.toClass = .ok roots ∧ d = roots.foldl Draft.addRoot d₁ := by
  unfold toDraft
  constructor
  · intro ok
    split at ok
    · rename_i ops named
      obtain ⟨ops', same, ok⟩ := exists_of_bind_eq_ok ok
      obtain rfl := Except.ok.inj same
      obtain ⟨d₁, loaded, ok⟩ := exists_of_bind_eq_ok ok
      obtain ⟨roots, read, ok⟩ := exists_of_bind_eq_ok ok
      exact ⟨ops, d₁, roots, named, loaded, read, (Except.ok.inj ok).symm⟩
    · cases ok
  · rintro ⟨ops, d₁, roots, named, loaded, read, rfl⟩
    rw [named]
    change (doc.nodes.toList.foldlM (Draft.addDocumentClass ops.size) (Draft.withOps ops) >>= _) = _
    rw [loaded]
    change (doc.roots.mapM DocumentId.toClass >>= _) = _
    rw [read]
    rfl

/-- A text loads when it is read as a value, the value as a document, and the document loads. -/
theorem Document.readText_eq_ok_iff {text : List (Option Char)} {d : Draft Float} :
    readText text = .ok d ↔
      ∃ v doc, Json.read? text = some v ∧ ofJson? v = some doc ∧ doc.toDraft = .ok d := by
  unfold readText
  constructor
  · intro ok
    split at ok
    · cases ok
    · rename_i doc found
      obtain ⟨v, parsed, read⟩ := Option.bind_eq_some_iff.1 found
      exact ⟨v, doc, parsed, read, ok⟩
  · rintro ⟨v, doc, parsed, read, ok⟩
    rw [parsed, Option.bind_some, read]
    exact ok

/-- The keys of each node of a document. -/
def Document.keys (doc : Document) : List (String × String) :=
  doc.nodes.toList.flatMap fun entry => entry.2.toList.map fun e => (entry.1, e.1)

/-- A document that loads has one node for each of its entries, in their order and under the identity that its
keys spell, and the draft is tight. -/
theorem Document.spelled_of_toDraft {doc : Document} {d : Draft Float} (ok : doc.toDraft = .ok d) :
    doc.keys.mapM spelled? = some d.nodes.keys ∧ d.Tight := by
  obtain ⟨ops, d₁, roots, _, loaded, _, rfl⟩ := toDraft_eq_ok_iff.1 ok
  obtain ⟨parts, related, adds⟩ := adds_of_foldlM (R := fun entry entries =>
    (entry.2.toList.map fun e => (entry.1, e.1)).mapM spelled? = some (entries.map Prod.fst))
    (fun _ _ _ => Draft.adds_of_addDocumentClass) loaded
  have tight : d₁.Tight := adds.tight (Draft.tight_withOps ops)
  rw [Draft.foldl_addRoot]
  exact ⟨(mapM_flatMap related).trans (congrArg some adds.keys.symm), tight⟩

end Extraction
