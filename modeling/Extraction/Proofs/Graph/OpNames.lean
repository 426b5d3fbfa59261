import Extraction.Proofs.Graph.Refusal
import Extraction.Proofs.Graph.RoundTrip
import Extraction.Proofs.Related

/-! Operators by name and by position. What counts of an operator is its name: it is loaded as the position that
the name has in the table in the end, no matter how it is given or which node brings the name in. Documents that
agree on the names and end with one table are therefore loaded as one draft. -/
namespace Extraction

namespace OpTable

def insertAll (t : OpTable) (names : List String) : OpTable := names.foldl insert t

theorem insertAll_append (t : OpTable) (names more : List String) :
    t.insertAll (names ++ more) = (t.insertAll names).insertAll more := List.foldl_append

theorem prefix_insertAll (t : OpTable) (names : List String) : t.names <+: (t.insertAll names).names := by
  induction names generalizing t with
  | nil => exact List.prefix_rfl
  | cons name names ih => exact (t.prefix_insert name).trans (ih (t.insert name))

theorem mem_insert (t : OpTable) (name : String) : name ∈ (t.insert name).names := by
  by_cases known : name ∈ t.names
  · rwa [insert_of_mem known]
  · rw [names_insert_of_notMem known]
    exact List.mem_append_right _ (List.mem_singleton_self name)

/-- A table that is made of names has each of them once, in the order in which they come first. -/
theorem names_insertAll (names : List String) : (insertAll ∅ names).names = names.eraseDups := by
  induction names using List.reverseRecOn with
  | nil => rfl
  | append_singleton names name ih =>
    have known : name ∈ (insertAll ∅ names).names ↔ name ∈ names := by rw [ih, List.mem_eraseDups]
    rw [insertAll_append, eraseDups_concat]
    change ((insertAll ∅ names).insert name).names = _
    by_cases mem : name ∈ names
    · rw [insert_of_mem (known.2 mem), if_pos mem, ih]
    · rw [names_insert_of_notMem (mem ∘ known.1), if_neg mem, ih]

theorem names_of_ofNames {names : List String} {t : OpTable} (ok : ofNames names = .ok t) : t.names = names := by
  suffices listed : ∀ before : OpTable, names.foldlM (fun t name =>
      if h : name ∈ t.names then Except.error name else .ok (t.append name h)) before = .ok t →
        t.names = before.names ++ names from listed empty ok
  clear ok
  induction names with
  | nil =>
    rintro before ⟨⟩
    exact (List.append_nil _).symm
  | cons name names ih =>
    intro before ok
    rw [List.foldlM_cons] at ok
    split at ok
    · cases ok
    · rw [ih _ ok]
      exact List.append_assoc _ [name] names

/-- Where a table has grown out of another one, the names of that one have kept their positions. -/
theorem intern_of_prefix {t u : OpTable} (grown : t.names <+: u.names) {name : String} (known : name ∈ t.names) :
    (t.intern name).1 = (u.intern name).1 := by
  obtain ⟨more, same⟩ := grown
  rw [intern, intern, ← same, List.idxOf_append_of_mem known]

/-- A name is found where it came in. -/
theorem intern_insert (t : OpTable) (name : String) : ((t.insert name).intern name).1 = (t.intern name).1 := by
  by_cases known : name ∈ t.names
  · rw [insert_of_mem known]
  · rw [intern, intern, names_insert_of_notMem known, List.idxOf_append_of_notMem known, List.idxOf_cons_self,
      List.idxOf_eq_length known, Nat.add_zero]

end OpTable

namespace DocumentOp

/-- The name of an operator that is given by name, or by its position among the listed names. -/
def nameIn? (listed : List String) : DocumentOp → Option String
  | index n => listed[n]?
  | name n => some n

/-- The names that an operator brings into the table. -/
def brings : DocumentOp → List String
  | index _ => []
  | name n => [n]

/-- Operators of one name. Where one table is listed, this is also said of a position beyond it and itself. -/
inductive Agrees (listed listed' : List String) : DocumentOp → DocumentOp → Prop
  | named {op op' : DocumentOp} {n : String} (one : op.nameIn? listed = some n)
      (other : op'.nameIn? listed' = some n) : Agrees listed listed' op op'
  | same (listing : listed = listed') (op : DocumentOp) : Agrees listed listed' op op

end DocumentOp

namespace Draft

/-- A draft with the name of an operator in its table. -/
def bring (d : Draft Float) : DocumentOp → Draft Float
  | .index _ => d
  | .name n => d.addOp n

theorem ops_bring (d : Draft Float) (op : DocumentOp) : (d.bring op).ops = d.ops.insertAll op.brings := by
  cases op <;> rfl

/-- An operator whose name is known is loaded as the position of that name. -/
theorem resolve_of_named {t : OpTable} {op : DocumentOp} {n : String} (named : op.nameIn? t.names = some n)
    {d : Draft Float} (listed : t.names <+: d.ops.names) (id : NodeId) :
    op.resolve t.size id d = .ok (((d.bring op).ops.intern n).1, d.bring op) ∧ n ∈ (d.bring op).ops.names := by
  cases op with
  | index i =>
    obtain ⟨inside, here⟩ := List.getElem?_eq_some_iff.1 named
    have known : n ∈ t.names := List.mem_iff_getElem.2 ⟨i, inside, here⟩
    have position : t.names.idxOf n = i := by rw [← here, t.nodup.idxOf_getElem]
    refine ⟨?_, listed.subset known⟩
    change (if i < t.size then _ else _) = Except.ok ((d.ops.intern n).1, d)
    rw [if_pos (show i < t.size from inside), ← OpTable.intern_of_prefix listed known, OpTable.intern, position]
  | name m =>
    obtain rfl := Option.some.inj named
    have known := d.ops.mem_insert m
    refine ⟨?_, known⟩
    change Except.ok ((d.ops.intern m).1, d.addOp m) = Except.ok (((d.ops.insert m).intern m).1, d.addOp m)
    rw [OpTable.intern_insert]

/-- Drafts that hold the same but for their tables, which will be the same when the names to come are in. -/
structure Converge (t t' : OpTable) (coming coming' : List String) (d d' : Draft Float) : Prop where
  nodes : d.nodes = d'.nodes
  roots : d.roots = d'.roots
  next : d.nextIndex = d'.nextIndex
  ops : d.ops.insertAll coming = d'.ops.insertAll coming'
  listed : t.names <+: d.ops.names
  listed' : t'.names <+: d'.ops.names

namespace Converge
variable {t t' : OpTable} {coming coming' : List String} {d d' : Draft Float}

theorem eq (same : Converge t t' [] [] d d') : d = d' := by
  have ops : d.ops = d'.ops := same.ops
  have nodes := same.nodes
  have roots := same.roots
  have next := same.next
  cases d
  cases d'
  cases nodes
  cases roots
  cases next
  cases ops
  rfl

theorem bring {op op' : DocumentOp}
    (same : Converge t t' (op.brings ++ coming) (op'.brings ++ coming') d d') :
    Converge t t' coming coming' (d.bring op) (d'.bring op') where
  nodes := by cases op <;> cases op' <;> exact same.nodes
  roots := by cases op <;> cases op' <;> exact same.roots
  next := by cases op <;> cases op' <;> exact same.next
  ops := by
    rw [ops_bring, ops_bring, ← OpTable.insertAll_append, ← OpTable.insertAll_append]
    exact same.ops
  listed := by
    rw [ops_bring]
    exact same.listed.trans (d.ops.prefix_insertAll op.brings)
  listed' := by
    rw [ops_bring]
    exact same.listed'.trans (d'.ops.prefix_insertAll op'.brings)

/-- A name that both tables know has the position that it has in the table in the end. -/
theorem intern_eq (same : Converge t t' coming coming' d d') {n : String} (known : n ∈ d.ops.names)
    (known' : n ∈ d'.ops.names) : (d.ops.intern n).1 = (d'.ops.intern n).1 := by
  rw [OpTable.intern_of_prefix (d.ops.prefix_insertAll coming) known, same.ops,
    ← OpTable.intern_of_prefix (d'.ops.prefix_insertAll coming') known']

/-- A node whose operator both tables know is let in or refused alike. -/
theorem addNode (same : Converge t t' coming coming' d d') (id : NodeId) {node : Node Float}
    (known : (d.ops.name? node.op).isSome) (known' : (d'.ops.name? node.op).isSome) :
    Ends (Converge t t' coming coming') (d.addNode id node) (d'.addNode id node) := by
  have keys : d.nodes.keys = d'.nodes.keys := by rw [same.nodes]
  unfold Draft.addNode
  split
  · exact .error _
  split
  rotate_left
  · exact .error _
  split
  rotate_left
  · exact .error _
  split
  · exact .error _
  split
  · exact .error _
  by_cases stored : id ∈ d.nodes.keys
  · rw [dif_pos stored, dif_pos (keys ▸ stored)]
    exact .error _
  · rw [dif_neg stored, dif_neg (keys ▸ stored)]
    refine .ok ⟨?_, same.roots, ?_, same.ops, same.listed, same.listed'⟩
    · simp only [append, same.nodes]
    · simp only [append, same.next]

end Converge

variable {t t' : OpTable} {coming coming' : List String} {d d' : Draft Float}

/-- One position, which both tables know, beside drafts that converge. -/
structure Resolved (t t' : OpTable) (coming coming' : List String) (r r' : OpId × Draft Float) : Prop where
  position : r.1 = r'.1
  drafts : Converge t t' coming coming' r.2 r'.2
  known : (r.2.ops.name? r.1).isSome
  known' : (r'.2.ops.name? r'.1).isSome

theorem Converge.resolve_named {op op' : DocumentOp} {n : String} (one : op.nameIn? t.names = some n)
    (other : op'.nameIn? t'.names = some n)
    (same : Converge t t' (op.brings ++ coming) (op'.brings ++ coming') d d') (id : NodeId) :
    Ends (Resolved t t' coming coming') (op.resolve t.size id d) (op'.resolve t'.size id d') := by
  have held (u : OpTable) (mem : n ∈ u.names) : (u.name? (u.intern n).1).isSome := by
    have found := u.isSome_name?_intern n
    rwa [OpTable.intern, OpTable.insert_of_mem mem] at found
  obtain ⟨resolved, known⟩ := resolve_of_named one same.listed id
  obtain ⟨resolved', known'⟩ := resolve_of_named other same.listed' id
  rw [resolved, resolved']
  exact .ok ⟨same.bring.intern_eq known known', same.bring, held _ known, held _ known'⟩

/-- Operators that agree are resolved alike. -/
theorem Converge.resolve {op op' : DocumentOp} (agrees : op.Agrees t.names t'.names op')
    (same : Converge t t' (op.brings ++ coming) (op'.brings ++ coming') d d') (id : NodeId) :
    Ends (Resolved t t' coming coming') (op.resolve t.size id d) (op'.resolve t'.size id d') := by
  cases agrees with
  | named one other => exact same.resolve_named one other id
  | same listing =>
    cases named : op.nameIn? t.names with
    | some n => exact same.resolve_named named (listing ▸ named) id
    | none =>
      cases op with
      | name n => cases named
      | index i =>
        have beyond : ¬ i < t.size := Nat.not_lt.2 (List.getElem?_eq_none_iff.1 named)
        have size : t.size = t'.size := by rw [OpTable.size, listing, OpTable.size]
        rw [DocumentOp.resolve, DocumentOp.resolve, ← size, if_neg beyond, if_neg beyond]
        exact .error _

end Draft

/-- Nodes that say the same, operators aside, which are related. -/
structure DocumentNode.Agrees (S : DocumentOp → DocumentOp → Prop) (node node' : DocumentNode) : Prop where
  op : S node.op node'.op
  children : node.children.mapM DocumentId.toClass = node'.children.mapM DocumentId.toClass
  eclass : node.eclass.toClass = node'.eclass.toClass
  cost : node.cost = node'.cost

/-- The names that the nodes of a class bring into the table. -/
def broughtBy (nodes : OrderedMap String DocumentNode) : List String := nodes.toList.flatMap fun e => e.2.op.brings

/-- Classes under one key whose nodes say the same. -/
def ClassAgrees (S : DocumentOp → DocumentOp → Prop) : String × OrderedMap String DocumentNode →
    String × OrderedMap String DocumentNode → Prop :=
  Keyed fun _ nodes nodes' => List.Forall₂ (Keyed fun _ => DocumentNode.Agrees S) nodes.toList nodes'.toList

namespace Draft.Converge
variable {t t' : OpTable} {coming coming' : List String} {d d' : Draft Float}

theorem addDocumentNode {node node' : DocumentNode} (agrees : node.Agrees (DocumentOp.Agrees t.names t'.names) node')
    (same : Converge t t' (node.op.brings ++ coming) (node'.op.brings ++ coming') d d') (id : NodeId) :
    Ends (Converge t t' coming coming') (d.addDocumentNode t.size id node)
      (d'.addDocumentNode t'.size id node') := by
  unfold Draft.addDocumentNode
  refine (same.resolve agrees.op id).bind ?_
  rintro ⟨op, d⟩ ⟨op', d'⟩ resolved
  obtain rfl : op = op' := resolved.position
  rw [← agrees.children, ← agrees.eclass, ← agrees.cost]
  refine (Ends.of_eq rfl).bind ?_
  rintro children _ rfl
  refine (Ends.of_eq rfl).bind ?_
  rintro eclass _ rfl
  have added : Ends (Converge t t' coming coming')
      (d.addNode id ⟨op, children, eclass, node.cost.getD 1.0⟩)
      (d'.addNode id ⟨op, children, eclass, node.cost.getD 1.0⟩) :=
    resolved.drafts.addNode id resolved.known resolved.known'
  revert added
  generalize d.addNode id _ = x
  generalize d'.addNode id _ = y
  rintro (same | e)
  · exact .ok same
  · exact .error _

theorem addDocumentClass {entry entry' : String × OrderedMap String DocumentNode}
    (agrees : ClassAgrees (DocumentOp.Agrees t.names t'.names) entry entry')
    (same : Converge t t' (broughtBy entry.2 ++ coming) (broughtBy entry'.2 ++ coming') d d') :
    Ends (Converge t t' coming coming') (d.addDocumentClass t.size entry) (d'.addDocumentClass t'.size entry') := by
  unfold Draft.addDocumentClass
  rw [← agrees.1]
  refine (Ends.of_eq rfl).bind ?_
  rintro owner _ rfl
  refine Ends.foldlM ?_ agrees.2 same
  rintro e e' rest rest' d d' alike same
  rw [← alike.1]
  refine (Ends.of_eq rfl).bind ?_
  rintro index _ rfl
  exact same.addDocumentNode alike.2 _

end Draft.Converge

namespace Document

/-- The names that the nodes of a document bring into the table. -/
def brings (doc : Document) : List String := doc.nodes.toList.flatMap fun entry => broughtBy entry.2

/-- Documents whose nodes and roots say the same. -/
structure Agrees (S : DocumentOp → DocumentOp → Prop) (doc doc' : Document) : Prop where
  nodes : List.Forall₂ (ClassAgrees S) doc.nodes.toList doc'.nodes.toList
  roots : doc.roots.mapM DocumentId.toClass = doc'.roots.mapM DocumentId.toClass

theorem Agrees.imp {S S' : DocumentOp → DocumentOp → Prop} {doc doc' : Document} (agrees : doc.Agrees S doc')
    (follows : ∀ op op', S op op' → S' op op') : doc.Agrees S' doc' where
  nodes := agrees.nodes.imp fun _ _ entry => ⟨entry.1, entry.2.imp fun _ _ node =>
    ⟨node.1, follows _ _ node.2.op, node.2.children, node.2.eclass, node.2.cost⟩⟩
  roots := agrees.roots

theorem toDraft_of_table {doc : Document} {t : OpTable} (table : OpTable.ofNames (doc.ops.getD []) = .ok t) :
    doc.toDraft = (do
      let d ← doc.nodes.toList.foldlM (Draft.addDocumentClass t.size) (Draft.withOps t)
      let roots ← doc.roots.mapM DocumentId.toClass
      return roots.foldl Draft.addRoot d) := by
  rw [toDraft, table]
  rfl

/-- Documents that say the same and end with one table are loaded alike. -/
theorem Agrees.toDraft_eq {doc doc' : Document} {t t' : OpTable}
    (agrees : doc.Agrees (DocumentOp.Agrees t.names t'.names) doc')
    (table : OpTable.ofNames (doc.ops.getD []) = .ok t) (table' : OpTable.ofNames (doc'.ops.getD []) = .ok t')
    (grown : t.insertAll doc.brings = t'.insertAll doc'.brings) : doc.toDraft = doc'.toDraft := by
  have start : Draft.Converge t t' (doc.nodes.toList.flatMap (fun entry => broughtBy entry.2) ++ [])
      (doc'.nodes.toList.flatMap (fun entry => broughtBy entry.2) ++ []) (.withOps t) (.withOps t') :=
    { nodes := rfl
      roots := rfl
      next := rfl
      ops := by
        rw [List.append_nil, List.append_nil]
        exact grown
      listed := List.prefix_rfl
      listed' := List.prefix_rfl }
  have step : ∀ entry entry' coming coming' (d d' : Draft Float),
      ClassAgrees (DocumentOp.Agrees t.names t'.names) entry entry' →
        Draft.Converge t t' (broughtBy entry.2 ++ coming) (broughtBy entry'.2 ++ coming') d d' →
          Ends (Draft.Converge t t' coming coming') (d.addDocumentClass t.size entry)
            (d'.addDocumentClass t'.size entry') := fun _ _ _ _ _ _ alike same => same.addDocumentClass alike
  have loaded := ((Ends.foldlM step agrees.nodes start).imp fun _ _ same => same.eq).eq
  rw [toDraft_of_table table, toDraft_of_table table', loaded, agrees.roots]

end Document

namespace OpTable

/-- Names that are listed already come in without an effect, so positions and names of listed operators make up
the same table. -/
theorem insertAll_brings {t : OpTable} {op op' : DocumentOp} {listed : List String}
    (agrees : op.Agrees listed listed op') (known : listed ⊆ t.names) :
    t.insertAll op.brings = t.insertAll op'.brings := by
  have idle {op : DocumentOp} {n : String} (named : op.nameIn? listed = some n) :
      t.insertAll op.brings = t.insert n := by
    cases op with
    | index i => exact (insert_of_mem (known (List.mem_of_getElem? named))).symm
    | name m =>
      obtain rfl := Option.some.inj named
      rfl
  cases agrees with
  | named one other => rw [idle one, idle other]
  | same => rfl

theorem insertAll_flatMap {β γ : Type} {Q : β → γ → Prop} {part : β → List String} {part' : γ → List String}
    {listed : List String} (each : ∀ x y, Q x y → ∀ t : OpTable, listed ⊆ t.names →
      t.insertAll (part x) = t.insertAll (part' y))
    {xs : List β} {ys : List γ} (related : List.Forall₂ Q xs ys) {t : OpTable} (known : listed ⊆ t.names) :
    t.insertAll (xs.flatMap part) = t.insertAll (ys.flatMap part') := by
  induction related generalizing t with
  | nil => rfl
  | cons first _ ih =>
    rw [List.flatMap_cons, List.flatMap_cons, insertAll_append, insertAll_append, ← each _ _ first t known]
    exact ih (List.Subset.trans known (t.prefix_insertAll _).subset)

end OpTable

/-- A document says the same whichever of its operators are given by name and which by position in its table. -/
theorem Document.toDraft_respelled {doc doc' : Document} (ops : doc.ops = doc'.ops)
    (agrees : doc.Agrees (DocumentOp.Agrees (doc.ops.getD []) (doc.ops.getD [])) doc') :
    doc.toDraft = doc'.toDraft := by
  cases table : OpTable.ofNames (doc.ops.getD []) with
  | error name =>
    unfold toDraft
    rw [← ops, table]
    rfl
  | ok t =>
    rw [← OpTable.names_of_ofNames table] at agrees
    refine agrees.toDraft_eq table (ops ▸ table) ?_
    refine OpTable.insertAll_flatMap (fun c c' alike t known => ?_) agrees.nodes (List.Subset.refl _)
    refine OpTable.insertAll_flatMap (fun e e' alike t known => ?_) alike.2 known
    exact OpTable.insertAll_brings alike.2.op known

end Extraction
