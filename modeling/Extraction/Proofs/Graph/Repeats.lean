import Extraction.Proofs.Graph.Loading
import Extraction.Proofs.Json.RoundTrip
import Extraction.Proofs.Related
import Mathlib.Data.List.Nodup
import Mathlib.Data.List.Pairwise

/-! Keys that come twice in one object. Of entries with one key the latest is kept and the others are passed
over without an error; what is kept is loaded as one node each, under the identity that its keys spell. -/
namespace Extraction

section Related
variable {β γ δ : Type}

theorem exists_between {R : β → γ → Prop} {S : β → δ → Prop} {T : δ → γ → Prop} {xs : List β}
    {ys : List γ} (related : List.Forall₂ R xs ys) (each : ∀ x y, R x y → ∃ z, S x z ∧ T z y) :
    ∃ zs, List.Forall₂ S xs zs ∧ List.Forall₂ T zs ys := by
  induction related with
  | nil => exact ⟨[], .nil, .nil⟩
  | cons first _ ih =>
    obtain ⟨zs, left, right⟩ := ih
    obtain ⟨z, before, behind⟩ := each _ _ first
    exact ⟨z :: zs, .cons before left, .cons behind right⟩

theorem flatMap_perm {R : β → γ → Prop} {f : β → List δ} {g : γ → List δ} {xs : List β} {ys : List γ}
    (related : List.Forall₂ R xs ys) (each : ∀ x y, R x y → (f x).Perm (g y)) :
    (xs.flatMap f).Perm (ys.flatMap g) := by
  induction related with
  | nil => exact .nil
  | cons first _ ih =>
    rw [List.flatMap_cons, List.flatMap_cons]
    exact (each _ _ first).append ih

end Related

section Latest
variable {κ ν ν' : Type} [DecidableEq κ]

/-- The entries whose keys do not come again later. -/
def latest (entries : List (κ × ν)) : List (κ × ν) := entries.pwFilter fun e e' => e.1 ≠ e'.1

theorem latest_cons (e : κ × ν) (entries : List (κ × ν)) : latest (e :: entries) =
    if e.1 ∈ entries.map Prod.fst then latest entries else e :: latest entries := by
  have kept : (∀ e' ∈ latest entries, e.1 ≠ e'.1) ↔ e.1 ∉ entries.map Prod.fst := by
    have apart := List.forall_mem_pwFilter (R := fun e e' : κ × ν => e.1 ≠ e'.1)
      (fun {x y z} different => by grind) e entries
    refine apart.trans ⟨fun apart again => ?_, fun last e' mem same => ?_⟩
    · obtain ⟨e', mem, same⟩ := List.mem_map.1 again
      exact apart e' mem same.symm
    · exact last (List.mem_map.2 ⟨e', mem, same.symm⟩)
  split
  · rename_i again
    exact List.pwFilter_cons_of_neg fun apart => kept.1 apart again
  · rename_i last
    exact List.pwFilter_cons_of_pos (kept.2 last)

theorem nodup_latest (entries : List (κ × ν)) : ((latest entries).map Prod.fst).Nodup :=
  List.pairwise_map.2 (List.pairwise_pwFilter entries)

/-- Where no key comes twice, all entries are kept. -/
theorem latest_eq_self {entries : List (κ × ν)} (distinct : (entries.map Prod.fst).Nodup) :
    latest entries = entries := List.pwFilter_eq_self.2 (List.pairwise_map.1 distinct)

theorem mem_foldl_insert {entries : List (κ × ν)} {m : OrderedMap κ ν} {e : κ × ν} :
    e ∈ (entries.foldl (fun m e => m.insert e.1 e.2) m).toList ↔
      e ∈ latest entries ∨ e ∈ m.toList ∧ e.1 ∉ entries.map Prod.fst := by
  induction entries generalizing m with
  | nil => simp [latest]
  | cons x entries ih =>
    rw [List.foldl_cons, ih, OrderedMap.mem_insert, latest_cons, List.map_cons, List.mem_cons]
    by_cases again : x.1 ∈ entries.map Prod.fst
    · rw [if_pos again]
      -- What came in first is passed over: a later entry has its key.
      have passed : e = (x.1, x.2) → e.1 ∈ entries.map Prod.fst := by
        rintro rfl
        exact again
      tauto
    · rw [if_neg again, List.mem_cons]
      have last : e = x → e.1 ∉ entries.map Prod.fst := by
        rintro rfl
        exact again
      tauto

/-- A map that is made of entries has the latest ones, in some order. -/
theorem toList_ofList_perm (entries : List (κ × ν)) :
    (OrderedMap.ofList entries).toList.Perm (latest entries) := by
  refine (List.perm_ext_iff_of_nodup ?_ ?_).2 fun e => ?_
  · exact List.Nodup.of_map _ (OrderedMap.nodup _)
  · exact List.Nodup.of_map _ (nodup_latest entries)
  · rw [OrderedMap.ofList, mem_foldl_insert]
    simp [OrderedMap.empty]

/-- Entries that are alike, key by key, are kept alike. -/
theorem forall₂_latest {R : κ × ν → κ × ν' → Prop} {entries : List (κ × ν)} {entries' : List (κ × ν')}
    (alike : List.Forall₂ R entries entries') (keys : ∀ e e', R e e' → e.1 = e'.1) :
    List.Forall₂ R (latest entries) (latest entries') := by
  induction alike with
  | nil => exact .nil
  | @cons e e' _ _ first others ih =>
    rw [latest_cons, latest_cons, keys e e' first, map_fst_eq others keys]
    split
    · exact ih
    · exact .cons first ih

end Latest

/-- The keys of classes with nodes: of each node the key of its class and its own. -/
def keysOf {ν : Type} (classes : List (String × List (String × ν))) : List (String × String) :=
  classes.flatMap fun c => c.2.map fun e => (c.1, e.1)

/-- What is left of classes with nodes where the latest entry of a key is kept. -/
def kept {ν : Type} (classes : List (String × List (String × ν))) : List (String × List (String × ν)) :=
  (latest classes).map fun c => (c.1, latest c.2)

/-- No class comes twice, and no node comes twice in a class. -/
def Repeatless {ν : Type} (classes : List (String × List (String × ν))) : Prop :=
  (classes.map Prod.fst).Nodup ∧ ∀ c ∈ classes, (c.2.map Prod.fst).Nodup

instance {ν : Type} (classes : List (String × List (String × ν))) : Decidable (Repeatless classes) :=
  inferInstanceAs (Decidable (_ ∧ _))

theorem Repeatless.kept_eq {ν : Type} {classes : List (String × List (String × ν))}
    (repeatless : Repeatless classes) : kept classes = classes := by
  have each : ∀ c ∈ classes, (c.1, latest c.2) = c := fun c mem =>
    Prod.ext rfl (latest_eq_self (repeatless.2 c mem))
  rw [kept, latest_eq_self repeatless.1, List.map_congr_left each, List.map_id']

namespace Json

/-- The members of an object, each of which must have a text for a name. -/
def named? : Json → Option (List (String × Json))
  | .object members => members.mapM fun m => m.1.map fun name => (name, m.2)
  | _ => none

/-- The classes that are written in a document, each with the nodes that are written in it. -/
def written? (value : Json) : Option (List (String × List (String × Json))) := do
  let fields ← value.record? ["nodes", "root_eclasses", "op"]
  let classes ← (← fields.lookup "nodes").named?
  classes.mapM fun c => c.2.named?.map fun nodes => (c.1, nodes)

/-- An object is read as a map by reading its members. -/
theorem exists_of_map? {ν : Type} {value? : Json → Option ν} {v : Json} {m : OrderedMap String ν}
    (read : v.map? value? = some m) : ∃ members values, v.named? = some members ∧
      List.Forall₂ (fun e e' => e.1 = e'.1 ∧ value? e.2 = some e'.2) members values ∧
        m = .ofList values := by
  cases v with
  | object members =>
    obtain ⟨values, entries, made⟩ := Option.bind_eq_some_iff.1 read
    obtain rfl := Option.some.inj made
    rw [mapM_eq_some_iff] at entries
    obtain ⟨named, listed, related⟩ := exists_between
      (S := fun m e => m.1.map (fun name => (name, m.2)) = some e)
      (T := fun e e' => e.1 = e'.1 ∧ value? e.2 = some e'.2) entries fun m e entry => by
        obtain ⟨name, has, entry⟩ := Option.bind_eq_some_iff.1 entry
        obtain ⟨value, read, entry⟩ := Option.bind_eq_some_iff.1 entry
        obtain rfl := Option.some.inj entry
        exact ⟨(name, m.2), by rw [has]; rfl, rfl, read⟩
    exact ⟨named, values, mapM_eq_some_iff.2 listed, related, rfl⟩
  | _ => cases read

end Json

/-- A map read from an object holds the keys of its latest members. -/
theorem keys_perm_of_map? {ν : Type} {members : List (String × Json)} {values : List (String × ν)}
    {value? : Json → Option ν}
    (related : List.Forall₂ (fun e e' => e.1 = e'.1 ∧ value? e.2 = some e'.2) members values) :
    ((latest members).map Prod.fst).Perm ((OrderedMap.ofList values).toList.map Prod.fst) := by
  rw [map_fst_eq (forall₂_latest related fun _ _ h => h.1) fun _ _ h => h.1]
  exact ((toList_ofList_perm values).map Prod.fst).symm

/-- The nodes of a document that is read are made of the classes that are written in it, class by class, and
those of the nodes that are written there. -/
theorem Document.exists_values {v : Json} {doc : Document} (read : Document.ofJson? v = some doc) :
    ∃ written values, v.written? = some written ∧ doc.nodes = .ofList values ∧
      List.Forall₂ (fun w c => w.1 = c.1 ∧ ∃ nodes, c.2 = .ofList nodes ∧
        List.Forall₂ (fun e e' => e.1 = e'.1 ∧ DocumentNode.ofJson? e.2 = some e'.2) w.2 nodes) written values := by
  obtain ⟨fields, record, read⟩ := Option.bind_eq_some_iff.1 read
  obtain ⟨nodesValue, field, read⟩ := Option.bind_eq_some_iff.1 read
  obtain ⟨nodes, readNodes, read⟩ := Option.bind_eq_some_iff.1 read
  obtain ⟨roots, _, read⟩ := Option.bind_eq_some_iff.1 read
  obtain ⟨ops, _, read⟩ := Option.bind_eq_some_iff.1 read
  obtain rfl := Option.some.inj read
  obtain ⟨classes, values, named, related, rfl⟩ := Json.exists_of_map? readNodes
  obtain ⟨written, listed, alike⟩ := exists_between
    (S := fun c w => c.2.named?.map (fun nodes => (c.1, nodes)) = some w)
    (T := fun w c => w.1 = c.1 ∧ ∃ nodes, c.2 = .ofList nodes ∧
      List.Forall₂ (fun e e' => e.1 = e'.1 ∧ DocumentNode.ofJson? e.2 = some e'.2) w.2 nodes)
    related fun c v same => by
      obtain ⟨members, nodes, named, alike, made⟩ := Json.exists_of_map? same.2
      exact ⟨(c.1, members), by rw [named]; rfl, same.1, nodes, made, alike⟩
  refine ⟨written, values, ?_, rfl, alike⟩
  simp only [Json.written?, record, field, named, Option.bind_eq_bind, Option.bind_some]
  exact mapM_eq_some_iff.2 listed

/-- The keys of a document that is read are those of what is kept of its text. -/
theorem Document.exists_written {v : Json} {doc : Document} (read : Document.ofJson? v = some doc) :
    ∃ written, v.written? = some written ∧ (keysOf (kept written)).Perm doc.keys := by
  obtain ⟨written, values, listed, made, alike⟩ := exists_values read
  refine ⟨written, listed, ?_⟩
  have inner : (keysOf (kept written)).Perm
      ((latest values).flatMap fun v => v.2.toList.map fun e => (v.1, e.1)) := by
    rw [keysOf, kept, List.flatMap_map]
    refine flatMap_perm (forall₂_latest alike fun _ _ h => h.1) fun w v same => ?_
    obtain ⟨key, nodes, made, alike⟩ := same
    have keys := (keys_perm_of_map? alike).map fun k => (w.1, k)
    rw [List.map_map, List.map_map, ← made] at keys
    rw [← key]
    exact keys
  rw [keys, made]
  exact inner.trans ((toList_ofList_perm values).symm.flatMap_right _)

/-- A text that loads holds one node for each node that is kept of it, and no two of these spell one identity.
Where no key comes twice in an object, all that is written is kept: there is one node for each node that is
written, and two that spell one identity would not have loaded. -/
theorem Document.kept_of_readText {text : List (Option Char)} {d : Draft Float}
    (ok : readText text = .ok d) :
    ∃ v written, Json.read? text = some v ∧ v.written? = some written ∧
      (∃ ids, (keysOf (kept written)).mapM spelled? = some ids ∧ ids.Nodup ∧ ids.Perm d.nodes.keys) ∧
      (Repeatless written → (keysOf written).length = d.nodes.size ∧
        ∃ ids, (keysOf written).mapM spelled? = some ids ∧ ids.Nodup ∧ ids.Perm d.nodes.keys) := by
  obtain ⟨v, doc, parsed, read, ok⟩ := readText_eq_ok_iff.1 ok
  obtain ⟨written, listed, keys⟩ := exists_written read
  obtain ⟨spelled, _⟩ := spelled_of_toDraft ok
  obtain ⟨ids, reads⟩ : ∃ ids, (keysOf (kept written)).mapM spelled? = some ids := by
    refine exists_mapM fun key mem => ?_
    obtain ⟨id, _, read⟩ := mem_mapM spelled (keys.mem_iff.1 mem)
    exact ⟨id, read⟩
  have perm : ids.Perm d.nodes.keys := perm_of_mapM keys reads spelled
  have distinct : ids.Nodup := perm.nodup_iff.2 d.nodes.nodup
  refine ⟨v, written, parsed, listed, ⟨ids, reads, distinct, perm⟩, fun repeatless => ?_⟩
  rw [repeatless.kept_eq] at reads
  refine ⟨?_, ids, reads, distinct, perm⟩
  calc (keysOf written).length = ids.length := (mapM_eq_some_iff.1 reads).length_eq
    _ = d.nodes.keys.length := perm.length_eq
    _ = d.nodes.size := List.length_map _

section Leaves
set_option maxRecDepth 100000

/-- A document of nodes of class 0, each given by its key and its operator. -/
def leafDocument (leaves : List (String × String)) : Json :=
  .record [("nodes", .record [("0", .record (leaves.map fun leaf =>
    (leaf.1, .record [("op", .string (some leaf.2)), ("eclass", .number "0")])))])]

theorem isWritable_leafDocument (leaves : List (String × String)) : (leafDocument leaves).IsWritable := by
  refine Json.isWritable_record (List.forall_mem_singleton.2 ?_)
  refine Json.isWritable_record (List.forall_mem_singleton.2 ?_)
  refine Json.isWritable_record (List.forall_mem_map.2 fun leaf _ => Json.isWritable_record ?_)
  have eclass : Json.IsWritable (.number "0") := by
    rw [Json.IsWritable]
    decide
  exact List.forall_mem_cons.2 ⟨rfl, List.forall_mem_singleton.2 eclass⟩

/-- What a document of leaves is loaded as, found without its text. -/
theorem exists_ofString_leafDocument {leaves : List (String × String)} {ids : List NodeId}
    (loads : (Document.ofJson? (leafDocument leaves)).bind
      (fun doc => doc.toDraft.toOption.map fun d => d.nodes.keys) = some ids) :
    ∃ d : Draft Float, Draft.ofString (leafDocument leaves).pretty = .ok d ∧ d.nodes.keys = ids := by
  obtain ⟨doc, read, loads⟩ := Option.bind_eq_some_iff.1 loads
  obtain ⟨d, loaded, keys⟩ := Option.map_eq_some_iff.1 loads
  have parsed := Json.read?_pretty (isWritable_leafDocument leaves)
  exact ⟨d, Document.readText_eq_ok_iff.2 ⟨_, doc, parsed, read, eq_ok_of_toOption loaded⟩, keys⟩

/-- Keys that are spelled in different ways are all kept. -/
theorem leafDocument_kept : ∃ (d : Draft Float) (v : Json) (written : List (String × List (String × Json))),
    Draft.ofString (leafDocument [("01", "x"), ("0", "y")]).pretty = .ok d ∧
      Json.read? ((leafDocument [("01", "x"), ("0", "y")]).pretty.toList.map some) = some v ∧
      v.written? = some written ∧ Repeatless written ∧ (keysOf written).length = d.nodes.size ∧
      d.nodes.size = 2 := by
  obtain ⟨d, ok, keys⟩ := @exists_ofString_leafDocument [("01", "x"), ("0", "y")]
    [⟨⟨0⟩, 1⟩, ⟨⟨0⟩, 0⟩] (by decide +kernel)
  have repeatless : (leafDocument [("01", "x"), ("0", "y")]).written?.all (fun w => decide (Repeatless w)) := by
    decide +kernel
  obtain ⟨v, written, parsed, listed, _, all⟩ := Document.kept_of_readText ok
  obtain rfl := Option.some.inj (parsed.symm.trans (Json.read?_pretty (isWritable_leafDocument _)))
  rw [listed, Option.all_some, decide_eq_true_eq] at repeatless
  have two : d.nodes.size = 2 := by
    calc d.nodes.size = d.nodes.keys.length := (List.length_map _).symm
      _ = 2 := by rw [keys]; rfl
  exact ⟨d, _, written, ok, parsed, listed, repeatless, (all repeatless).1, two⟩

/-- Two nodes of one identity are written, and one of them is held: the key of the first comes again. -/
theorem leafDocument_merges : ∃ (d : Draft Float) (v : Json) (written : List (String × List (String × Json))),
    Draft.ofString (leafDocument [("0", "x"), ("0", "y")]).pretty = .ok d ∧
      Json.read? ((leafDocument [("0", "x"), ("0", "y")]).pretty.toList.map some) = some v ∧
      v.written? = some written ∧
      (keysOf written).mapM spelled? = some [⟨⟨0⟩, 0⟩, ⟨⟨0⟩, 0⟩] ∧
      d.nodes.keys = [⟨⟨0⟩, 0⟩] := by
  obtain ⟨d, ok, keys⟩ := @exists_ofString_leafDocument [("0", "x"), ("0", "y")] [⟨⟨0⟩, 0⟩] (by decide +kernel)
  have writes : (leafDocument [("0", "x"), ("0", "y")]).written?.bind (fun w => (keysOf w).mapM spelled?) =
      some [⟨⟨0⟩, 0⟩, ⟨⟨0⟩, 0⟩] := by
    decide +kernel
  obtain ⟨written, listed, spelled⟩ := Option.bind_eq_some_iff.1 writes
  exact ⟨d, _, written, ok, Json.read?_pretty (isWritable_leafDocument _), listed, spelled, keys⟩

end Leaves

end Extraction
