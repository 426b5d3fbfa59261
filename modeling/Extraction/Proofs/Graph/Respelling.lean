import Extraction.Proofs.Graph.OpNames
import Extraction.Proofs.Graph.Repeats

/-! Documents spelled in different ways. An identity is a number or its digits as a text, an operator is a position
in the listed names or the name there, and any of them may be given either way without a difference in what is
loaded. The list of names may be left out where the nodes use the names, in the order in which they use them. -/
namespace Extraction

namespace Json

/-- An identity as a number below `2 ^ 32` and as the text of its digits. -/
inductive SameId : Json → Json → Prop
  | refl (v : Json) : SameId v v
  | spelled {lexeme : String} {n : Nat} (word : word? lexeme = some n) (small : n < UInt32.size) :
      SameId (.number lexeme) (.string (some (toString n)))
  | counted {lexeme : String} {n : Nat} (word : word? lexeme = some n) (small : n < UInt32.size) :
      SameId (.string (some (toString n))) (.number lexeme)

/-- An operator as a position in a table and as the name that stands there. -/
inductive SameOp (table : List Json) : Json → Json → Prop
  | refl (v : Json) : SameOp table v v
  | named {lexeme name : String} {i : Nat} (word : word? lexeme = some i)
      (listed : table[i]? = some (.string (some name))) : SameOp table (.number lexeme) (.string (some name))
  | placed {lexeme name : String} {i : Nat} (word : word? lexeme = some i)
      (listed : table[i]? = some (.string (some name))) : SameOp table (.string (some name)) (.number lexeme)

/-- A name and its position among names. -/
inductive Places (names : List String) : Json → Json → Prop
  | placed {lexeme name : String} {i : Nat} (word : word? lexeme = some i) (listed : names[i]? = some name) :
      Places names (.string (some name)) (.number lexeme)

/-- Arrays whose items are alike one by one. What is no array is alike only if it is the same. -/
def ItemsAlike (R : Json → Json → Prop) : Json → Json → Prop
  | .array items, .array items' => List.Forall₂ R items items'
  | v, v' => v = v'

/-- Objects whose members have the same names and are alike one by one. -/
def MembersAlike (R : Json → Json → Prop) : Json → Json → Prop
  | .object members, .object members' => List.Forall₂ (Keyed fun _ => R) members members'
  | v, v' => v = v'

/-- Records, as objects or as arrays, whose fields are alike one by one, each in the way of its name. -/
def RecordAlike (known : List String) (R : String → Json → Json → Prop) : Json → Json → Prop
  | .object members, .object members' =>
    List.Forall₂ (Keyed fun name v v' => ∀ n ∈ name, R n v v') members members'
  | .array items, .array items' =>
    items.length = items'.length ∧ List.Forall₂ (Keyed R) (known.zip items) (known.zip items')
  | v, v' => v = v'

def nodeFields : List String := ["op", "children", "eclass", "cost"]

def documentFields : List String := ["nodes", "root_eclasses", "op"]

/-- Fields of nodes whose identities are the same and whose operators are related. -/
def NodeField (O : Json → Json → Prop) : String → Json → Json → Prop
  | "op" => O
  | "children" => ItemsAlike SameId
  | "eclass" => SameId
  | _ => Eq

/-- Fields of documents whose identities are the same and whose operators are related. -/
def DocumentField (O : Json → Json → Prop) : String → Json → Json → Prop
  | "nodes" => MembersAlike (MembersAlike (RecordAlike nodeFields (NodeField O)))
  | "root_eclasses" => ItemsAlike SameId
  | _ => Eq

/-- The items of the list of operators of a document. -/
def opItems (v : Json) : List Json :=
  (do
    let fields ← v.record? documentFields
    (← fields.lookup "op").items?).getD []

/-- The same document but for the spelling of some identities and operators. -/
def Respells (v v' : Json) : Prop := RecordAlike documentFields (DocumentField (SameOp v.opItems)) v v'

section Reading
variable {R S : Json → Json → Prop} {v v' : Json}

theorem rel_items? (alike : ItemsAlike R v v') : Option.Rel (List.Forall₂ R) v.items? v'.items? := by
  unfold ItemsAlike at alike
  split at alike
  · exact .some alike
  · rename_i other
    obtain rfl := alike
    cases v with
    | array items => exact absurd rfl (other items items rfl)
    | _ => exact .none

theorem rel_map? {ν ν' : Type} {value? : Json → Option ν} {value?' : Json → Option ν'} {T : ν → ν' → Prop}
    (alike : MembersAlike R v v') (each : ∀ a b, R a b → Option.Rel T (value? a) (value?' b)) :
    Option.Rel (fun m m' => List.Forall₂ (Keyed fun _ => T) m.toList m'.toList) (v.map? value?)
      (v'.map? value?') := by
  unfold MembersAlike at alike
  split at alike
  · have entries := rel_mapM (S := Keyed fun _ => T)
      (f := fun m : Option String × Json => do return (← m.1, ← value? m.2))
      (g := fun m : Option String × Json => do return (← m.1, ← value?' m.2)) alike
      fun m m' same => by
        obtain ⟨name, value⟩ := m
        obtain ⟨name', value'⟩ := m'
        obtain ⟨rfl, same⟩ := same
        cases name with
        | none => exact .none
        | some name =>
          change Option.Rel _ ((value? value).bind fun x => some (name, x))
            ((value?' value').bind fun x => some (name, x))
          exact rel_bind (each _ _ same) fun _ _ related => .some ⟨rfl, related⟩
    exact rel_bind entries fun _ _ related => .some (forall₂_ofList related)
  · rename_i other
    obtain rfl := alike
    cases v with
    | object members => exact absurd rfl (other members members rfl)
    | _ => exact .none

theorem rel_record? {known : List String} {N : String → Json → Json → Prop} (alike : RecordAlike known N v v') :
    Option.Rel (List.Forall₂ (Keyed N)) (v.record? known) (v'.record? known) := by
  unfold RecordAlike at alike
  split at alike
  · have named := rel_mapM (S := Keyed N) (f := fun m : Option String × Json => m.1.map fun name => (name, m.2))
      (g := fun m : Option String × Json => m.1.map fun name => (name, m.2)) alike fun m m' same => by
        obtain ⟨name, value⟩ := m
        obtain ⟨name', value'⟩ := m'
        obtain ⟨rfl, same⟩ := same
        cases name with
        | none => exact .none
        | some name => exact .some ⟨rfl, same name rfl⟩
    refine rel_bind named fun fields fields' related => ?_
    have chosen : List.Forall₂ (Keyed N) (fields.filter fun m => known.contains m.1)
        (fields'.filter fun m => known.contains m.1) :=
      List.rel_filter (fun f f' same => by dsimp only; rw [same.1]) related
    dsimp only
    rw [map_fst_eq chosen fun _ _ same => same.1]
    split
    · exact .some chosen
    · exact .none
  · obtain ⟨length, related⟩ := alike
    rw [record?, record?, ← length]
    split
    · exact .some related
    · exact .none
  · rename_i noObject noArray
    obtain rfl := alike
    cases v with
    | object members => exact absurd rfl (noObject members members rfl)
    | array items => exact absurd rfl (noArray items items rfl)
    | _ => exact .none

end Reading

end Json

theorem DocumentId.toClass_text {n : Nat} (small : n < UInt32.size) :
    toClass (.text (toString n)) = toClass (.number n) := by
  have word : n.toUInt32.toNat = n := Nat.mod_eq_of_lt small
  have read := readComponent_toString n.toUInt32
  rw [word] at read
  rw [toClass, toClass, read, if_pos small]
  rfl

theorem Json.SameId.rel {v v' : Json} (same : v.SameId v') :
    Option.Rel (fun id id' => DocumentId.toClass id = id'.toClass) (DocumentId.ofJson? v)
      (DocumentId.ofJson? v') := by
  cases same with
  | refl =>
    cases DocumentId.ofJson? v with
    | none => exact .none
    | some id => exact .some rfl
  | spelled word small =>
    rw [DocumentId.ofJson?, DocumentId.ofJson?, word]
    exact .some (DocumentId.toClass_text small).symm
  | counted word small =>
    rw [DocumentId.ofJson?, DocumentId.ofJson?, word]
    exact .some (DocumentId.toClass_text small)

theorem mapM_eq_of_forall₂ {ε β γ δ : Type} {f : β → Except ε δ} {g : γ → Except ε δ} {xs : List β} {ys : List γ}
    (alike : List.Forall₂ (fun x y => f x = g y) xs ys) : xs.mapM f = ys.mapM g := by
  induction alike with
  | nil => rfl
  | cons first _ ih => rw [List.mapM_cons, List.mapM_cons, first, ih]

/-- Lists of identities that are the same stand for the same classes. -/
theorem rel_idsOfJson? {v? v'? : Option Json} (alike : Option.Rel (Json.ItemsAlike Json.SameId) v? v'?) :
    Option.Rel (fun ids ids' => ids.mapM DocumentId.toClass = ids'.mapM DocumentId.toClass) (idsOfJson? v?)
      (idsOfJson? v'?) := by
  cases alike with
  | none => exact .some rfl
  | some alike =>
    refine rel_bind (Json.rel_items? alike) fun items items' related => ?_
    exact rel_imp (rel_mapM related fun _ _ same => same.rel) fun _ _ => mapM_eq_of_forall₂

section Documents
variable {O : Json → Json → Prop} {S : DocumentOp → DocumentOp → Prop}

/-- Nodes that are alike are read as nodes that agree. -/
theorem DocumentNode.rel_ofJson? (reads : ∀ a b, O a b → Option.Rel S (DocumentOp.ofJson? a) (DocumentOp.ofJson? b))
    {v v' : Json} (alike : Json.RecordAlike Json.nodeFields (Json.NodeField O) v v') :
    Option.Rel (DocumentNode.Agrees S) (ofJson? v) (ofJson? v') := by
  refine rel_bind (Json.rel_record? alike) fun fields fields' alike => ?_
  have op : Option.Rel O (fields.lookup "op") (fields'.lookup "op") := rel_lookup alike "op"
  have children : Option.Rel (Json.ItemsAlike Json.SameId) (fields.lookup "children") (fields'.lookup "children") :=
    rel_lookup alike "children"
  have eclass : Option.Rel Json.SameId (fields.lookup "eclass") (fields'.lookup "eclass") :=
    rel_lookup alike "eclass"
  have cost : Option.Rel Eq (fields.lookup "cost") (fields'.lookup "cost") := rel_lookup alike "cost"
  refine rel_bind op fun _ _ op => rel_bind (reads _ _ op) fun _ _ op => ?_
  refine rel_bind (rel_idsOfJson? children) fun _ _ children => ?_
  refine rel_bind eclass fun _ _ eclass => rel_bind eclass.rel fun _ _ eclass => ?_
  rw [eq_of_rel cost]
  cases costOfJson? (fields'.lookup "cost") with
  | none => exact .none
  | some cost => exact .some ⟨op, children, eclass, rfl⟩

/-- A document made of the fields of a record. -/
def Document.ofFields? (fields : List (String × Json)) : Option Document := do
  let nodes ← (← fields.lookup "nodes").map? (Json.map? DocumentNode.ofJson?)
  let roots ← idsOfJson? (fields.lookup "root_eclasses")
  let ops ← opsOfJson? (fields.lookup "op")
  return ⟨nodes, roots, ops⟩

theorem Document.ofJson?_eq (v : Json) : ofJson? v = (v.record? Json.documentFields).bind ofFields? := rfl

/-- Fields whose nodes and roots are alike, and whose lists of operators can be read, make up documents that
agree. -/
theorem Document.rel_ofFields? (reads : ∀ a b, O a b → Option.Rel S (DocumentOp.ofJson? a) (DocumentOp.ofJson? b))
    {fields fields' : List (String × Json)}
    (nodes : Option.Rel (Json.DocumentField O "nodes") (fields.lookup "nodes") (fields'.lookup "nodes"))
    (roots : Option.Rel (Json.DocumentField O "root_eclasses") (fields.lookup "root_eclasses")
      (fields'.lookup "root_eclasses")) {ops ops' : Option (List String)}
    (listed : opsOfJson? (fields.lookup "op") = some ops) (listed' : opsOfJson? (fields'.lookup "op") = some ops') :
    Option.Rel (fun doc doc' => doc.ops = ops ∧ doc'.ops = ops' ∧ doc.Agrees S doc') (ofFields? fields)
      (ofFields? fields') := by
  rw [ofFields?, ofFields?, listed, listed']
  refine rel_bind nodes fun _ _ nodes => ?_
  have readNodes := Json.rel_map? nodes fun _ _ nodes =>
    Json.rel_map? nodes fun _ _ node => DocumentNode.rel_ofJson? reads node
  refine rel_bind readNodes fun _ _ nodes => ?_
  exact rel_bind (rel_idsOfJson? roots) fun _ _ roots => .some ⟨rfl, rfl, nodes, roots⟩

theorem Document.ofFields?_eq_none {fields : List (String × Json)}
    (unread : opsOfJson? (fields.lookup "op") = none) : ofFields? fields = none := by
  simp [ofFields?, unread]

end Documents

theorem getElem?_of_forall₂ {β γ : Type} {R : β → γ → Prop} {xs : List β} {ys : List γ}
    (related : List.Forall₂ R xs ys) {i : Nat} {x : β} (here : xs[i]? = some x) : ∃ y, ys[i]? = some y ∧ R x y := by
  induction related generalizing i with
  | nil => cases here
  | cons first _ ih =>
    cases i with
    | zero => exact ⟨_, rfl, Option.some.inj here ▸ first⟩
    | succ i => exact ih here

/-- The names in a list of operators are read off its items. -/
theorem getElem?_opsOfJson? {v? : Option Json} {ops : Option (List String)} (read : opsOfJson? v? = some ops)
    {i : Nat} {name : String} (item : ((v?.bind Json.items?).getD [])[i]? = some (.string (some name))) :
    (ops.getD [])[i]? = some name := by
  unfold opsOfJson? at read
  split at read
  · cases item
  · cases item
  · obtain ⟨items, listed, read⟩ := Option.bind_eq_some_iff.1 read
    obtain ⟨names, texts, made⟩ := Option.bind_eq_some_iff.1 read
    obtain rfl := Option.some.inj made
    rw [Option.bind_some, listed, Option.getD_some] at item
    obtain ⟨_, there, named⟩ := getElem?_of_forall₂ (mapM_eq_some_iff.1 texts) item
    rw [Option.getD_some, there, ← named]

/-- Operators that are the same in view of a table are read as operators that agree. -/
theorem Json.SameOp.rel {table : List Json} {listed : List String}
    (reads : ∀ (i : Nat) (name : String), table[i]? = some (.string (some name)) → listed[i]? = some name)
    {v v' : Json} (same : v.SameOp table v') :
    Option.Rel (DocumentOp.Agrees listed listed) (DocumentOp.ofJson? v) (DocumentOp.ofJson? v') := by
  cases same with
  | refl =>
    cases DocumentOp.ofJson? v with
    | none => exact .none
    | some op => exact .some (.same rfl op)
  | named word item =>
    rw [DocumentOp.ofJson?, DocumentOp.ofJson?, word]
    exact .some (.named (reads _ _ item) rfl)
  | placed word item =>
    rw [DocumentOp.ofJson?, DocumentOp.ofJson?, word]
    exact .some (.named rfl (reads _ _ item))

namespace Document

/-- A document is loaded as it is when some of its identities and operators are spelled in the other way. -/
theorem rel_respelled {v v' : Json} (same : v.Respells v') :
    Option.Rel (fun doc doc' => doc.toDraft = doc'.toDraft) (ofJson? v) (ofJson? v') := by
  have records := Json.rel_record? same
  have table : v.opItems = ((v.record? Json.documentFields).bind fun fields =>
    (fields.lookup "op").bind Json.items?).getD [] := rfl
  rw [ofJson?_eq, ofJson?_eq]
  revert table records
  generalize v.record? Json.documentFields = fields?
  generalize v'.record? Json.documentFields = fields'?
  rintro (@⟨fields, fields', alike⟩ | _) table
  rotate_left
  · exact .none
  have ops : fields.lookup "op" = fields'.lookup "op" := eq_of_rel (rel_lookup alike "op")
  cases listed : opsOfJson? (fields.lookup "op") with
  | none =>
    rw [Option.bind_some, Option.bind_some, ofFields?_eq_none listed, ofFields?_eq_none (ops ▸ listed)]
    exact .none
  | some names =>
    have reads : ∀ (i : Nat) (name : String), v.opItems[i]? = some (.string (some name)) →
        (names.getD [])[i]? = some name := by
      rw [table]
      exact fun i name item => getElem?_opsOfJson? listed item
    refine rel_imp (rel_ofFields? (fun _ _ op => Json.SameOp.rel reads op) (rel_lookup alike "nodes")
      (rel_lookup alike "root_eclasses") listed (ops ▸ listed)) ?_
    rintro doc doc' ⟨rfl, same, agrees⟩
    exact toDraft_respelled same.symm agrees

end Document

theorem flatMap_eq_of_forall₂ {β γ δ : Type} {R : β → γ → Prop} {f : β → List δ} {g : γ → List δ} {xs : List β}
    {ys : List γ} (related : List.Forall₂ R xs ys) (each : ∀ x ∈ xs, ∀ y, R x y → f x = g y) :
    xs.flatMap f = ys.flatMap g := by
  induction related with
  | nil => rfl
  | cons first _ ih =>
    obtain ⟨here, others⟩ := List.forall_mem_cons.1 each
    rw [List.flatMap_cons, List.flatMap_cons, here _ first, ih others]

namespace Json

/-- The name of the operator of a written node, where it is given by name. -/
def opName? (node : Json) : Option String := do
  match ← (← node.record? nodeFields).lookup "op" with
  | .string text => text
  | _ => none

/-- The names that the nodes of a document use, in the order in which the nodes are written. -/
def usedNames (v : Json) : List String :=
  (v.written?.getD []).flatMap fun c => c.2.filterMap fun e => opName? e.2

theorem toList_opName? {v : Json} {node : DocumentNode} (read : DocumentNode.ofJson? v = some node) :
    (opName? v).toList = node.op.brings := by
  obtain ⟨fields, record, read⟩ := Option.bind_eq_some_iff.1 read
  obtain ⟨value, field, read⟩ := Option.bind_eq_some_iff.1 read
  obtain ⟨op, readOp, read⟩ := Option.bind_eq_some_iff.1 read
  obtain ⟨_, _, read⟩ := Option.bind_eq_some_iff.1 read
  obtain ⟨_, _, read⟩ := Option.bind_eq_some_iff.1 read
  obtain ⟨_, _, read⟩ := Option.bind_eq_some_iff.1 read
  obtain ⟨_, _, read⟩ := Option.bind_eq_some_iff.1 read
  obtain rfl := Option.some.inj read
  have record : v.record? nodeFields = some fields := record
  simp only [opName?, record, field, Option.bind_eq_bind, Option.bind_some]
  unfold DocumentOp.ofJson? at readOp
  split at readOp
  · obtain ⟨i, _, rfl⟩ := Option.map_eq_some_iff.1 readOp
    rfl
  · obtain ⟨name, rfl, rfl⟩ := Option.map_eq_some_iff.1 readOp
    rfl
  · cases readOp

end Json

/-- Where no key comes twice in an object, the names that a document brings in are those that are written. -/
theorem Document.brings_eq {v : Json} {doc : Document} (read : ofJson? v = some doc)
    (repeatless : Repeatless (v.written?.getD [])) : doc.brings = v.usedNames := by
  obtain ⟨written, values, listed, made, alike⟩ := exists_values read
  rw [listed, Option.getD_some] at repeatless
  have distinct := repeatless.1
  rw [map_fst_eq alike fun _ _ h => h.1] at distinct
  rw [Json.usedNames, listed, Option.getD_some, brings, made, OrderedMap.toList_ofList distinct]
  refine (flatMap_eq_of_forall₂ alike fun w mem c same => ?_).symm
  obtain ⟨_, nodes, made, alike⟩ := same
  have distinct := repeatless.2 w mem
  rw [map_fst_eq alike fun _ _ h => h.1] at distinct
  rw [broughtBy, made, OrderedMap.toList_ofList distinct, List.filterMap_eq_flatMap_toList]
  exact flatMap_eq_of_forall₂ alike fun _ _ _ same => Json.toList_opName? same.2

namespace Json

/-- The second record lists names and gives the operators by position that the first one, which lists none,
gives by name. Identities are the same. -/
structure TabulatesFields (names : List String) (fields fields' : List (String × Json)) : Prop where
  unlisted : opsOfJson? (fields.lookup "op") = some none
  listed : fields'.lookup "op" = some (.array (names.map fun name => .string (some name)))
  nodes : Option.Rel (DocumentField (Places names) "nodes") (fields.lookup "nodes") (fields'.lookup "nodes")
  roots : Option.Rel (DocumentField (Places names) "root_eclasses") (fields.lookup "root_eclasses")
    (fields'.lookup "root_eclasses")

/-- The same document with its operators listed in the order in which its nodes use them first. -/
def Tabulates (v v' : Json) : Prop :=
  Option.Rel (TabulatesFields v.usedNames.eraseDups) (v.record? documentFields) (v'.record? documentFields)

end Json

namespace DocumentOp

/-- A name and its position among names. -/
inductive Placed (names : List String) : DocumentOp → DocumentOp → Prop
  | placed {n : String} {i : Nat} (listed : names[i]? = some n) : Placed names (.name n) (.index i)

theorem Placed.agrees {names : List String} {op op' : DocumentOp} : Placed names op op' → Agrees [] names op op'
  | placed listed => .named rfl listed

theorem rel_of_places {names : List String} {v v' : Json} (places : v.Places names v') :
    Option.Rel (Placed names) (ofJson? v) (ofJson? v') := by
  cases places with
  | placed word listed =>
    rw [ofJson?, ofJson?, word]
    exact .some (.placed listed)

end DocumentOp

namespace Document

/-- A document whose operators are all given by position brings no names in. -/
theorem brings_eq_nil {names : List String} {doc doc' : Document}
    (agrees : doc.Agrees (DocumentOp.Placed names) doc') : doc'.brings = [] := by
  have idle {op op' : DocumentOp} : DocumentOp.Placed names op op' → op'.brings = []
    | .placed _ => rfl
  have nil {β : Type} (xs : List β) : xs.flatMap (fun _ => ([] : List String)) = [] :=
    List.flatMap_eq_nil_iff.2 fun _ _ => rfl
  rw [← nil doc.nodes.toList, brings]
  refine (flatMap_eq_of_forall₂ agrees.nodes fun entry _ entry' same => ?_).symm
  rw [← nil entry.2.toList, broughtBy]
  exact flatMap_eq_of_forall₂ same.2 fun _ _ _ same => (idle same.2.op).symm

/-- A document that lists no operators is loaded as it is when it lists them. -/
theorem rel_tabulated {v v' : Json} (repeatless : Repeatless (v.written?.getD [])) (tabulates : v.Tabulates v') :
    Option.Rel (fun doc doc' => doc.toDraft = doc'.toDraft) (ofJson? v) (ofJson? v') := by
  have used : ∀ doc, ofJson? v = some doc → doc.brings = v.usedNames := fun _ read => brings_eq read repeatless
  rw [ofJson?_eq] at used
  rw [ofJson?_eq, ofJson?_eq]
  unfold Json.Tabulates at tabulates
  revert used tabulates
  generalize v.record? Json.documentFields = fields?
  generalize v'.record? Json.documentFields = fields'?
  rintro (@⟨fields, fields', tabulates⟩ | _) used
  rotate_left
  · exact .none
  let t : OpTable := ⟨v.usedNames.eraseDups, nodup_eraseDups _⟩
  have listed' : opsOfJson? (fields'.lookup "op") = some (some t.names) := by
    rw [tabulates.listed]
    exact opsOfJson?_names t.names
  have docs := rel_ofFields? (fun _ _ op => DocumentOp.rel_of_places op) tabulates.nodes tabulates.roots
    tabulates.unlisted listed'
  rw [Option.bind_some] at used
  rw [Option.bind_some, Option.bind_some]
  revert used docs
  generalize ofFields? fields = doc?
  generalize ofFields? fields' = doc'?
  rintro used (@⟨doc, doc', unlisted, listed, agrees⟩ | _)
  rotate_left
  · exact .none
  have same : doc.Agrees (DocumentOp.Agrees (∅ : OpTable).names t.names) doc' :=
    agrees.imp fun _ _ => DocumentOp.Placed.agrees
  refine .some (same.toDraft_eq ?_ ?_ ?_)
  · rw [unlisted]
    rfl
  · rw [listed]
    exact t.ofNames_names
  · rw [brings_eq_nil agrees]
    refine OpTable.ext ?_
    rw [OpTable.names_insertAll, used doc rfl]
    rfl

/-- Two texts with values that are loaded alike are loaded alike. -/
theorem readText_eq_of_rel {text text' : List (Option Char)} {v v' : Json} (read : Json.read? text = some v)
    (read' : Json.read? text' = some v')
    (docs : Option.Rel (fun doc doc' => doc.toDraft = doc'.toDraft) (ofJson? v) (ofJson? v')) :
    readText text = readText text' := by
  rw [readText, readText, read, read', Option.bind_some, Option.bind_some]
  revert docs
  generalize ofJson? v = doc?
  generalize ofJson? v' = doc'?
  rintro (same | _)
  · exact same
  · rfl

/-- A text is loaded as it is, with the same draft or the same error, when some of the identities in it are
spelled in the other way, as numbers or as texts, and some of the operators, by position in its table or by name.
So is a text without a table whose nodes name their operators and in which no key comes twice, when it gets the
table of these names in the order of first use and its nodes the positions. -/
theorem readText_respelled {text text' : List (Option Char)} {v v' : Json} (read : Json.read? text = some v)
    (read' : Json.read? text' = some v') :
    (v.Respells v' → readText text = readText text') ∧
      (Repeatless (v.written?.getD []) → v.Tabulates v' → readText text = readText text') :=
  ⟨fun same => readText_eq_of_rel read read' (rel_respelled same),
    fun repeatless tabulates => readText_eq_of_rel read read' (rel_tabulated repeatless tabulates)⟩

end Document

namespace Json

def ofText (text : String) : Json := .string (some text)

theorem SameId.digits {n : Nat} (small : n < UInt32.size) : SameId (.ofNat n) (.ofText (toString n)) :=
  .spelled (word?_toString (Nat.lt_trans small (by decide))) small

theorem SameId.symm {v v' : Json} : v.SameId v' → v'.SameId v
  | .refl _ => .refl _
  | .spelled word small => .counted word small
  | .counted word small => .spelled word small

end Json

/-- A node as it stands in a document. -/
structure WrittenNode where
  op : Json
  children : List Json
  eclass : Json

namespace WrittenNode

def json (w : WrittenNode) : Json :=
  .record [("op", w.op), ("children", .array w.children), ("eclass", w.eclass)]

/-- Nodes with the same identities and with operators that are related. -/
structure Alike (O : Json → Json → Prop) (w w' : WrittenNode) : Prop where
  op : O w.op w'.op
  children : List.Forall₂ Json.SameId w.children w'.children
  eclass : w.eclass.SameId w'.eclass

theorem Alike.json {O : Json → Json → Prop} {w w' : WrittenNode} (alike : w.Alike O w') :
    Json.RecordAlike Json.nodeFields (Json.NodeField O) w.json w'.json := by
  refine .cons ⟨rfl, ?_⟩ (.cons ⟨rfl, ?_⟩ (.cons ⟨rfl, ?_⟩ .nil)) <;> rintro _ ⟨⟩
  · exact alike.op
  · exact alike.children
  · exact alike.eclass

def values (w : WrittenNode) : List Json := w.op :: w.eclass :: w.children

theorem isWritable_json {w : WrittenNode} (each : ∀ v ∈ w.values, v.IsWritable) : w.json.IsWritable := by
  obtain ⟨op, each⟩ := List.forall_mem_cons.1 each
  obtain ⟨eclass, each⟩ := List.forall_mem_cons.1 each
  have children : Json.IsWritable (.array w.children) := Json.allWritable_iff.2 each
  refine Json.isWritable_record ?_
  simp only [List.forall_mem_cons]
  exact ⟨op, children, eclass, fun _ none => absurd none List.not_mem_nil⟩

end WrittenNode

/-- The nodes of a document with one node in each class, given by the keys of the classes. -/
def writtenNodes (nodes : List (String × WrittenNode)) : Json :=
  .record (nodes.map fun e => (e.1, .record [("0", e.2.json)]))

theorem writtenNodes_alike {O : Json → Json → Prop} {nodes nodes' : List (String × WrittenNode)}
    (alike : List.Forall₂ (Keyed fun _ => WrittenNode.Alike O) nodes nodes') :
    Json.DocumentField O "nodes" (writtenNodes nodes) (writtenNodes nodes') := by
  refine List.forall₂_map_left_iff.2 (List.forall₂_map_right_iff.2 ?_)
  refine List.forall₂_map_left_iff.2 (List.forall₂_map_right_iff.2 (alike.imp fun e e' same => ?_))
  exact ⟨congrArg some same.1, .cons ⟨rfl, same.2.json⟩ .nil⟩

/-- A document of such nodes and of roots, with what stands beside them. -/
def writtenDocument (nodes : List (String × WrittenNode)) (roots : List Json) (others : List (String × Json)) :
    Json :=
  .record (("nodes", writtenNodes nodes) :: ("root_eclasses", .array roots) :: others)

theorem isWritable_writtenDocument {nodes : List (String × WrittenNode)} {roots : List Json}
    {others : List (String × Json)} (each : ∀ e ∈ nodes, ∀ v ∈ e.2.values, v.IsWritable)
    (root : ∀ v ∈ roots, v.IsWritable) (other : ∀ m ∈ others, m.2.IsWritable) :
    (writtenDocument nodes roots others).IsWritable := by
  have written : (writtenNodes nodes).IsWritable := by
    refine Json.isWritable_record (List.forall_mem_map.2 fun e mem => Json.isWritable_record ?_)
    exact List.forall_mem_singleton.2 (WrittenNode.isWritable_json (each e mem))
  have listed : Json.IsWritable (.array roots) := Json.allWritable_iff.2 root
  exact Json.isWritable_record (List.forall_mem_cons.2 ⟨written, List.forall_mem_cons.2 ⟨listed, other⟩⟩)

section Spellings
set_option maxRecDepth 100000

/-- A leaf of class 0, a node of class 1 above it, and a node of the root class 2 above both. -/
def namedDocument : Json := writtenDocument
  [("0", ⟨.ofText "y", [], .ofNat 0⟩),
    ("1", ⟨.ofText "x", [.ofNat 0], .ofNat 1⟩),
    ("2", ⟨.ofText "y", [.ofNat 1, .ofNat 0], .ofNat 2⟩)]
  [.ofNat 2] []

/-- The operators by position, and the root and the child 1 as texts. -/
def placedDocument : Json := writtenDocument
  [("0", ⟨.ofNat 0, [], .ofNat 0⟩),
    ("1", ⟨.ofNat 1, [.ofNat 0], .ofNat 1⟩),
    ("2", ⟨.ofNat 0, [.ofText (toString 1), .ofNat 0], .ofNat 2⟩)]
  [.ofText (toString 2)] [("op", .array [.ofText "y", .ofText "x"])]

/-- One operator by name, the root and the child 1 as numbers again, and a child 0 and the class 2 as texts. -/
def mixedDocument : Json := writtenDocument
  [("0", ⟨.ofNat 0, [], .ofNat 0⟩),
    ("1", ⟨.ofText "x", [.ofText (toString 0)], .ofNat 1⟩),
    ("2", ⟨.ofNat 0, [.ofNat 1, .ofNat 0], .ofText (toString 2)⟩)]
  [.ofNat 2] [("op", .array [.ofText "y", .ofText "x"])]

theorem namedDocument_tabulates : namedDocument.Tabulates placedDocument := by
  have names : namedDocument.usedNames.eraseDups = ["y", "x"] := by decide +kernel
  have first : Json.Places ["y", "x"] (.ofText "y") (.ofNat 0) := .placed (i := 0) (by decide) rfl
  have second : Json.Places ["y", "x"] (.ofText "x") (.ofNat 1) := .placed (i := 1) (by decide) rfl
  have child : Json.SameId (.ofNat 1) (.ofText (toString 1)) := .digits (by decide)
  have root : Json.SameId (.ofNat 2) (.ofText (toString 2)) := .digits (by decide)
  rw [Json.Tabulates, names]
  change Option.Rel _ (some [("nodes", writtenNodes _), ("root_eclasses", .array _)])
    (some [("nodes", writtenNodes _), ("root_eclasses", .array _), ("op", .array _)])
  refine .some
    { unlisted := rfl
      listed := rfl
      nodes := .some (writtenNodes_alike ?nodes)
      roots := .some (.cons root .nil) }
  refine .cons ⟨rfl, ?leaf⟩ (.cons ⟨rfl, ?middle⟩ (.cons ⟨rfl, ?top⟩ .nil))
  case leaf => exact ⟨first, .nil, .refl _⟩
  case middle => exact ⟨second, .cons (.refl _) .nil, .refl _⟩
  case top => exact ⟨first, .cons child (.cons (.refl _) .nil), .refl _⟩

theorem placedDocument_respells : placedDocument.Respells mixedDocument := by
  have name : Json.SameOp placedDocument.opItems (.ofNat 1) (.ofText "x") := .named (i := 1) (by decide) rfl
  have zero : Json.SameId (.ofNat 0) (.ofText (toString 0)) := .digits (by decide)
  have one : Json.SameId (.ofNat 1) (.ofText (toString 1)) := .digits (by decide)
  have two : Json.SameId (.ofNat 2) (.ofText (toString 2)) := .digits (by decide)
  refine .cons ⟨rfl, ?nodes⟩ (.cons ⟨rfl, ?roots⟩ (.cons ⟨rfl, ?table⟩ .nil)) <;> rintro _ ⟨⟩
  case table => exact rfl
  case roots => exact .cons two.symm .nil
  refine writtenNodes_alike (.cons ⟨rfl, ?leaf⟩ (.cons ⟨rfl, ?middle⟩ (.cons ⟨rfl, ?top⟩ .nil)))
  case leaf => exact ⟨.refl _, .nil, .refl _⟩
  case middle => exact ⟨name, .cons zero .nil, .refl _⟩
  case top => exact ⟨.refl _, .cons one.symm (.cons (.refl _) .nil), two⟩

/-- One draft comes of the names, of the table with the positions, and of a mixture. -/
theorem namedDocument_respelled : ∃ d : Draft Float, Draft.ofString namedDocument.pretty = .ok d ∧
    Draft.ofString placedDocument.pretty = .ok d ∧ Draft.ofString mixedDocument.pretty = .ok d ∧
      d.nodes.toList.map (fun e => (e.1, e.2.children)) =
        [(⟨⟨0⟩, 0⟩, []), (⟨⟨1⟩, 0⟩, [⟨0⟩]), (⟨⟨2⟩, 0⟩, [⟨1⟩, ⟨0⟩])] ∧
      d.roots = [⟨2⟩] ∧ d.ops.names = ["y", "x"] := by
  have number (n : Nat) : Json.IsWritable (.ofNat n) := Json.isWritable_ofNat n
  have text (t : String) : Json.IsWritable (.ofText t) := rfl
  have named : namedDocument.IsWritable :=
    isWritable_writtenDocument (by simp [WrittenNode.values, number, text]) (by simp [number]) (by simp)
  have table : Json.IsWritable (.array [.ofText "y", .ofText "x"]) := ⟨text _, text _, trivial⟩
  have placed : placedDocument.IsWritable :=
    isWritable_writtenDocument (by simp [WrittenNode.values, number, text]) (by simp [text]) (by simp [table])
  have mixed : mixedDocument.IsWritable :=
    isWritable_writtenDocument (by simp [WrittenNode.values, number, text]) (by simp [number]) (by simp [table])
  have loads : (Document.ofJson? namedDocument).bind
      (fun doc => doc.toDraft.toOption.map fun d =>
        (d.nodes.toList.map (fun e => (e.1, e.2.children)), d.roots, d.ops.names)) =
      some ([(⟨⟨0⟩, 0⟩, []), (⟨⟨1⟩, 0⟩, [⟨0⟩]), (⟨⟨2⟩, 0⟩, [⟨1⟩, ⟨0⟩])], [⟨2⟩], ["y", "x"]) := by
    decide +kernel
  obtain ⟨doc, read, loads⟩ := Option.bind_eq_some_iff.1 loads
  obtain ⟨d, loaded, held⟩ := Option.map_eq_some_iff.1 loads
  have ok : Draft.ofString namedDocument.pretty = .ok d :=
    Document.readText_eq_ok_iff.2 ⟨_, doc, Json.read?_pretty named, read, eq_ok_of_toOption loaded⟩
  have repeatless : Repeatless (namedDocument.written?.getD []) := by decide +kernel
  have tabulated := (Document.readText_respelled (Json.read?_pretty named) (Json.read?_pretty placed)).2 repeatless
    namedDocument_tabulates
  have respelled := (Document.readText_respelled (Json.read?_pretty placed) (Json.read?_pretty mixed)).1
    placedDocument_respells
  refine ⟨d, ok, tabulated.symm.trans ok, respelled.symm.trans (tabulated.symm.trans ok), ?_⟩
  obtain ⟨nodes, others⟩ := Prod.mk.inj held
  exact ⟨nodes, Prod.mk.inj others⟩

end Spellings

end Extraction
