import Extraction.Proofs.Collections

/-! Computations side by side. They fail together, with the same error where errors are told apart, or come to
results that are related; a fold carries a relation from one step to the next, and so does the making of a map. -/
namespace Extraction

section Options
variable {β γ δ ω : Type} {R : β → γ → Prop} {S : δ → ω → Prop}

theorem eq_of_rel {x y : Option β} (same : Option.Rel Eq x y) : x = y := by
  cases same with
  | none => rfl
  | some same => rw [same]

theorem rel_imp {T : β → γ → Prop} {x : Option β} {y : Option γ} (related : Option.Rel R x y)
    (follows : ∀ b c, R b c → T b c) : Option.Rel T x y := by
  cases related with
  | none => exact .none
  | some same => exact .some (follows _ _ same)

theorem rel_bind {x : Option β} {y : Option γ} {f : β → Option δ} {g : γ → Option ω}
    (related : Option.Rel R x y) (each : ∀ b c, R b c → Option.Rel S (f b) (g c)) :
    Option.Rel S (x.bind f) (y.bind g) := by
  cases related with
  | none => exact .none
  | some same => exact each _ _ same

theorem rel_mapM {f : β → Option δ} {g : γ → Option ω} {xs : List β} {ys : List γ}
    (related : List.Forall₂ R xs ys) (each : ∀ x y, R x y → Option.Rel S (f x) (g y)) :
    Option.Rel (List.Forall₂ S) (xs.mapM f) (ys.mapM g) := by
  induction related with
  | nil => exact .some .nil
  | cons first _ ih =>
    rw [List.mapM_cons, List.mapM_cons]
    refine rel_bind (each _ _ first) fun _ _ head => rel_bind ih fun _ _ tail => ?_
    exact .some (.cons head tail)

end Options

section Outcomes
variable {ε β γ δ ω σ τ : Type}

/-- Both fail with the same error, or both succeed with results that are related. -/
inductive Ends (R : β → γ → Prop) : Except ε β → Except ε γ → Prop
  | ok {b : β} {c : γ} (related : R b c) : Ends R (.ok b) (.ok c)
  | error (e : ε) : Ends R (.error e) (.error e)

namespace Ends

theorem of_eq {x y : Except ε β} (same : x = y) : Ends Eq x y := by
  rw [same]
  cases y with
  | ok b => exact .ok rfl
  | error e => exact .error e

theorem eq {x y : Except ε β} : Ends Eq x y → x = y
  | .ok rfl => rfl
  | .error _ => rfl

theorem imp {R S : β → γ → Prop} {x : Except ε β} {y : Except ε γ} (related : Ends R x y)
    (follows : ∀ b c, R b c → S b c) : Ends S x y := by
  cases related with
  | ok same => exact .ok (follows _ _ same)
  | error e => exact .error e

theorem bind {R : β → γ → Prop} {S : δ → ω → Prop} {x : Except ε β} {y : Except ε γ}
    {f : β → Except ε δ} {g : γ → Except ε ω} (related : Ends R x y)
    (each : ∀ b c, R b c → Ends S (f b) (g c)) : Ends S (x >>= f) (y >>= g) := by
  cases related with
  | ok same => exact each _ _ same
  | error e => exact .error e

/-- Two folds over elements that are related one by one. Each element uses up the part that it has of what is
still to come. -/
theorem foldlM {R : List σ → List τ → β → γ → Prop} {Q : δ → ω → Prop} {part : δ → List σ}
    {part' : ω → List τ} {f : β → δ → Except ε β} {g : γ → ω → Except ε γ}
    (step : ∀ x y rest rest' b c, Q x y → R (part x ++ rest) (part' y ++ rest') b c →
      Ends (R rest rest') (f b x) (g c y))
    {xs : List δ} {ys : List ω} (related : List.Forall₂ Q xs ys) {rest : List σ} {rest' : List τ} {b : β}
    {c : γ} (start : R (xs.flatMap part ++ rest) (ys.flatMap part' ++ rest') b c) :
    Ends (R rest rest') (xs.foldlM f b) (ys.foldlM g c) := by
  induction related generalizing b c with
  | nil => exact .ok start
  | cons first _ ih =>
    rw [List.flatMap_cons, List.flatMap_cons, List.append_assoc, List.append_assoc] at start
    rw [List.foldlM_cons, List.foldlM_cons]
    exact (step _ _ _ _ b c first start).bind fun _ _ next => ih next

end Ends

end Outcomes

section Entries
variable {κ ν ν' : Type}

/-- Entries with the same key and with values that are related under it. -/
def Keyed (R : κ → ν → ν' → Prop) (e : κ × ν) (e' : κ × ν') : Prop := e.1 = e'.1 ∧ R e.1 e.2 e'.2

theorem map_fst_eq {R : κ × ν → κ × ν' → Prop} {entries : List (κ × ν)} {entries' : List (κ × ν')}
    (alike : List.Forall₂ R entries entries') (keys : ∀ e e', R e e' → e.1 = e'.1) :
    entries.map Prod.fst = entries'.map Prod.fst := by
  induction alike with
  | nil => rfl
  | cons first _ ih => rw [List.map_cons, List.map_cons, keys _ _ first, ih]

variable [DecidableEq κ]

theorem rel_lookup {N : κ → ν → ν' → Prop} {entries : List (κ × ν)} {entries' : List (κ × ν')}
    (related : List.Forall₂ (Keyed N) entries entries') (k : κ) :
    Option.Rel (N k) (entries.lookup k) (entries'.lookup k) := by
  induction related with
  | nil => exact .none
  | cons first _ ih =>
    rw [List.lookup_cons, List.lookup_cons, ← first.1]
    split
    · rename_i here
      rw [beq_iff_eq.1 here]
      exact .some first.2
    · exact ih

variable {R : ν → ν' → Prop}

theorem forall₂_insert {m : OrderedMap κ ν} {m' : OrderedMap κ ν'}
    (related : List.Forall₂ (Keyed fun _ => R) m.toList m'.toList) (k : κ) {v : ν} {v' : ν'} (value : R v v') :
    List.Forall₂ (Keyed fun _ => R) (m.insert k v).toList (m'.insert k v').toList := by
  have keys : m.keys = m'.keys := map_fst_eq related fun _ _ same => same.1
  by_cases there : k ∈ m.keys
  · rw [OrderedMap.toList_insert_of_mem v there, OrderedMap.toList_insert_of_mem v' (keys ▸ there),
      List.forall₂_map_left_iff, List.forall₂_map_right_iff]
    refine related.imp fun e e' same => ?_
    rw [← same.1]
    split
    · exact ⟨rfl, value⟩
    · exact same
  · rw [OrderedMap.toList_insert_of_notMem v there, OrderedMap.toList_insert_of_notMem v' (keys ▸ there)]
    exact List.rel_append related (.cons ⟨rfl, value⟩ .nil)

/-- Maps that are made of related entries have related entries, in the same order. -/
theorem forall₂_ofList {entries : List (κ × ν)} {entries' : List (κ × ν')}
    (related : List.Forall₂ (Keyed fun _ => R) entries entries') :
    List.Forall₂ (Keyed fun _ => R) (OrderedMap.ofList entries).toList (OrderedMap.ofList entries').toList := by
  have made : ∀ (m : OrderedMap κ ν) (m' : OrderedMap κ ν'),
      List.Forall₂ (Keyed fun _ => R) m.toList m'.toList →
        List.Forall₂ (Keyed fun _ => R) (entries.foldl (fun m e => m.insert e.1 e.2) m).toList
          (entries'.foldl (fun m e => m.insert e.1 e.2) m').toList := by
    induction related with
    | nil => exact fun _ _ before => before
    | @cons e e' _ _ first _ ih =>
      intro m m' before
      have grown : List.Forall₂ (Keyed fun _ => R) (m.insert e.1 e.2).toList (m'.insert e'.1 e'.2).toList := by
        rw [← first.1]
        exact forall₂_insert before e.1 first.2
      exact ih _ _ grown
  exact made _ _ .nil

end Entries

end Extraction
