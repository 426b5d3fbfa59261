import Extraction.Proofs.Json.Lexemes

/-! Values that are written as JSON text and read again. Writing puts down the tokens of a value, with
nothing between them that is not passed over, and the tokens of a value are folded into that value on any
stack of open arrays and objects. -/
namespace Extraction.Json

mutual

/-- Whether a value can be written as it is: a number is spelled as one, and every string is a text. -/
def IsWritable : Json → Prop
  | .null | .bool _ => True
  | .number lexeme => (numberParts? lexeme.toList).isSome
  | .string text => text.isSome
  | .array items => AllWritable items
  | .object members => MembersWritable members

def AllWritable : List Json → Prop
  | [] => True
  | item :: items => IsWritable item ∧ AllWritable items

def MemberWritable : Option String × Json → Prop
  | (name, value) => name.isSome ∧ IsWritable value

def MembersWritable : List (Option String × Json) → Prop
  | [] => True
  | member :: members => MemberWritable member ∧ MembersWritable members

end

theorem allWritable_iff {items : List Json} : AllWritable items ↔ ∀ item ∈ items, IsWritable item := by
  induction items with
  | nil => simp [AllWritable]
  | cons item items ih => rw [AllWritable, ih, List.forall_mem_cons]

theorem isWritable_record {members : List (String × Json)}
    (each : ∀ m ∈ members, IsWritable m.2) : IsWritable (record members) := by
  rw [record, IsWritable]
  induction members with
  | nil => trivial
  | cons m members ih =>
    obtain ⟨first, others⟩ := List.forall_mem_cons.1 each
    exact ⟨⟨rfl, first⟩, ih others⟩

mutual

/-- The tokens of a value in the order in which they are written. -/
def tokenList : Json → List Token
  | .array [] => [.openArray, .closeArray]
  | .array (item :: items) => .openArray :: tokenList item ++ tokensOfItems items ++ [.closeArray]
  | .object [] => [.openObject, .closeObject]
  | .object (member :: members) =>
    .openObject :: tokensOfMember member ++ tokensOfMembers members ++ [.closeObject]
  | scalar => [.scalar scalar]

def tokensOfItems : List Json → List Token
  | [] => []
  | item :: items => .comma :: tokenList item ++ tokensOfItems items

def tokensOfMember : Option String × Json → List Token
  | (name, value) => .scalar (.string name) :: .colon :: tokenList value

def tokensOfMembers : List (Option String × Json) → List Token
  | [] => []
  | member :: members => .comma :: tokensOfMember member ++ tokensOfMembers members

end

section Cutting

/-- No number and no word goes on with this text. -/
def Ends (rest : List (Option Char)) : Prop :=
  ∀ c, rest.head? = some (some c) → isNumberChar c = false ∧ c.isAlpha = false

/-- The text is cut into these tokens, whatever follows it. -/
def Cuts (text : List Char) (ts : List Token) : Prop :=
  ∀ rest, tokens (text.map some ++ rest) = (tokens rest).map (ts ++ ·)

/-- The text is cut into these tokens where no number or word goes on behind it. -/
def Lexes (text : List Char) (ts : List Token) : Prop :=
  ∀ rest, Ends rest → tokens (text.map some ++ rest) = (tokens rest).map (ts ++ ·)

/-- The text ends any number or word in front of it. -/
def Delimits (text : List Char) : Prop := ∀ rest, Ends (text.map some ++ rest)

variable {a b : List Char} {s t : List Token}

theorem Cuts.lexes (cuts : Cuts a s) : Lexes a s := fun rest _ => cuts rest

theorem map_append_tokens (ts : Option (List Token)) :
    (ts.map (t ++ ·)).map (s ++ ·) = ts.map (s ++ t ++ ·) := by
  cases ts <;> simp

theorem Cuts.append (first : Cuts a s) (second : Cuts b t) : Cuts (a ++ b) (s ++ t) := by
  intro rest
  rw [List.map_append, List.append_assoc, first, second, map_append_tokens]

theorem Cuts.append_lexes (first : Cuts a s) (second : Lexes b t) : Lexes (a ++ b) (s ++ t) := by
  intro rest ends
  rw [List.map_append, List.append_assoc, first, second rest ends, map_append_tokens]

theorem Lexes.append_cuts (first : Lexes a s) (second : Cuts b t) (apart : Delimits b) :
    Cuts (a ++ b) (s ++ t) := by
  intro rest
  rw [List.map_append, List.append_assoc, first _ (apart rest), second, map_append_tokens]

theorem delimits_cons {c : Char} (number : isNumberChar c = false) (word : c.isAlpha = false)
    (text : List Char) : Delimits (c :: text) := by
  rintro rest _ ⟨⟩
  exact ⟨number, word⟩

theorem tokens_cons {c : Char} {rest others : List (Option Char)} {token : Token}
    (visible : isSpace c = false) (scan : scanToken c rest = some (token, others)) :
    tokens (some c :: rest) = (tokens others).map (token :: ·) := by
  rw [tokens, if_neg (by simp [visible])]
  split
  · rename_i none
    cases none.symm.trans scan
  · rename_i found
    cases found.symm.trans scan
    rfl

theorem cuts_space {c : Char} (space : isSpace c = true) : Cuts [c] [] := by
  intro rest
  rw [List.map_singleton, List.singleton_append, tokens, if_pos space]
  simp

theorem cuts_mark {c : Char} {token : Token} (visible : isSpace c = false)
    (mark : punctuation? c = some token) : Cuts [c] [token] := by
  intro rest
  rw [List.map_singleton, List.singleton_append]
  exact tokens_cons visible (by rw [scanToken, mark])

theorem cuts_newline (depth : Nat) : Cuts (newline depth) [] := by
  have spaces : ∀ n, Cuts (List.replicate n ' ') [] := by
    intro n
    induction n with
    | zero => exact fun rest => by simp
    | succ n ih => exact (cuts_space rfl).append ih
  exact (cuts_space rfl).append (spaces (2 * depth))

theorem cuts_optionText (text : String) :
    Cuts (optionText (some text)) [.scalar (.string (some text))] := by
  intro rest
  obtain ⟨parts, read, joined⟩ := scanString_escaped text.toList rest
  have shape : (optionText (some text)).map some ++ rest =
      some '"' :: ((text.toList.flatMap escapeChar).map some ++ some '"' :: rest) := by
    simp [optionText, stringText]
  have mark : punctuation? '"' = none := rfl
  rw [shape]
  refine tokens_cons rfl ?_
  simp only [scanToken, mark, read, joined, Option.map_some, String.ofList_toList, if_true]

theorem lexes_number {lexeme : String} (number : (numberParts? lexeme.toList).isSome) :
    Lexes lexeme.toList [.scalar (.number lexeme)] := by
  intro rest ends
  obtain ⟨nonempty, all⟩ := numberChars_of_numberParts? number
  obtain ⟨c, run, same⟩ := List.exists_cons_of_ne_nil nonempty
  rw [same, List.forall_mem_cons] at all
  obtain ⟨first, others⟩ := all
  have visible : isSpace c = false := by
    rw [Bool.eq_false_iff]
    intro space
    simp only [isSpace, Bool.or_eq_true, decide_eq_true_eq] at space
    obtain ((rfl | rfl) | rfl) | rfl := space <;> cases first
  have mark : punctuation? c = none := by
    unfold punctuation?
    split <;> first | rfl | cases first
  have quote : c ≠ '"' := by
    rintro rfl
    cases first
  have whole := scanRun_append others fun d head => (ends d head).1
  rw [same, List.map_cons, List.cons_append]
  refine tokens_cons visible ?_
  rw [same] at number
  rw [scanToken, mark]
  simp only [quote, first, whole, number, ↓reduceIte]
  rw [← same, String.ofList_toList]

theorem lexes_word {c : Char} {word : List Char} {value : Json} (visible : isSpace c = false)
    (mark : punctuation? c = none) (quote : c ≠ '"') (number : isNumberChar c = false)
    (letters : word.all Char.isAlpha) (known : keyword? (c :: word) = some value) :
    Lexes (c :: word) [.scalar value] := by
  intro rest ends
  have whole := scanRun_append (List.all_eq_true.1 letters) fun d head => (ends d head).2
  rw [List.map_cons, List.cons_append]
  refine tokens_cons visible ?_
  rw [scanToken, mark]
  simp only [quote, number, whole, known, ↓reduceIte]
  rfl

end Cutting

/-- The closing line of an array or an object. -/
theorem cuts_closing (depth : Nat) {c : Char} {token : Token} (visible : isSpace c = false)
    (mark : punctuation? c = some token) : Cuts (newline depth ++ [c]) [token] :=
  (cuts_newline depth).append (cuts_mark visible mark)

theorem delimits_newline (depth : Nat) (text : List Char) : Delimits (newline depth ++ text) :=
  delimits_cons rfl rfl _

mutual

theorem lexes_layOut (depth : Nat) : ∀ v : Json, IsWritable v → Lexes (layOut depth v) (tokenList v)
  | .null, _ => lexes_word rfl rfl (by decide) rfl rfl rfl
  | .bool true, _ => lexes_word rfl rfl (by decide) rfl rfl rfl
  | .bool false, _ => lexes_word rfl rfl (by decide) rfl rfl rfl
  | .number _, spelled => lexes_number spelled
  | .string (some text), _ => (cuts_optionText text).lexes
  | .array [], _ => ((cuts_mark rfl rfl).append (cuts_mark (c := ']') rfl rfl)).lexes
  | .object [], _ => ((cuts_mark rfl rfl).append (cuts_mark (c := '\x7d') rfl rfl)).lexes
  | .array (item :: items), ⟨first, others⟩ => by
    have closing := cuts_closing depth (c := ']') rfl rfl
    obtain ⟨rest, apart⟩ := cuts_items (depth + 1) items others closing (delimits_newline depth _)
    have inner := (lexes_layOut (depth + 1) item first).append_cuts rest apart
    have all := (cuts_mark (c := '[') rfl rfl).append ((cuts_newline (depth + 1)).append inner)
    simpa [layOut, tokenList] using all.lexes
  | .object (member :: members), ⟨first, others⟩ => by
    have closing := cuts_closing depth (c := '\x7d') rfl rfl
    obtain ⟨rest, apart⟩ :=
      cuts_members (depth + 1) members others closing (delimits_newline depth _)
    have inner := (lexes_member (depth + 1) member first).append_cuts rest apart
    have all := (cuts_mark (c := '\x7b') rfl rfl).append ((cuts_newline (depth + 1)).append inner)
    simpa [layOut, tokenList] using all.lexes

theorem cuts_items (depth : Nat) : ∀ items : List Json, AllWritable items →
    ∀ {b : List Char} {t : List Token}, Cuts b t → Delimits b →
      Cuts (layOutItems depth items ++ b) (tokensOfItems items ++ t) ∧
        Delimits (layOutItems depth items ++ b)
  | [], _, _, _, last, apart => ⟨last, apart⟩
  | item :: items, ⟨first, others⟩, b, t, last, apart => by
    obtain ⟨rest, apart⟩ := cuts_items depth items others last apart
    have inner := (lexes_layOut depth item first).append_cuts rest apart
    have all := (cuts_mark (c := ',') rfl rfl).append ((cuts_newline depth).append inner)
    exact ⟨by simpa [layOutItems, tokensOfItems] using all, delimits_cons rfl rfl _⟩

theorem lexes_member (depth : Nat) : ∀ member : Option String × Json, MemberWritable member →
    Lexes (layOutMember depth member) (tokensOfMember member)
  | (some name, value), ⟨_, writable⟩ => by
    have mark := (cuts_mark (c := ':') rfl rfl).append (cuts_space (c := ' ') rfl)
    have all := (cuts_optionText name).append_lexes
      (mark.append_lexes (lexes_layOut depth value writable))
    simpa [layOutMember, tokensOfMember] using all

theorem cuts_members (depth : Nat) : ∀ members : List (Option String × Json),
    MembersWritable members → ∀ {b : List Char} {t : List Token}, Cuts b t → Delimits b →
      Cuts (layOutMembers depth members ++ b) (tokensOfMembers members ++ t) ∧
        Delimits (layOutMembers depth members ++ b)
  | [], _, _, _, last, apart => ⟨last, apart⟩
  | member :: members, ⟨first, others⟩, b, t, last, apart => by
    obtain ⟨rest, apart⟩ := cuts_members depth members others last apart
    have inner := (lexes_member depth member first).append_cuts rest apart
    have all := (cuts_mark (c := ',') rfl rfl).append ((cuts_newline depth).append inner)
    exact ⟨by simpa [layOutMembers, tokensOfMembers] using all, delimits_cons rfl rfl _⟩

end

/-- A value may begin here. -/
def Expected.Begins (expected : Expected) : Prop := expected = .value ∨ expected = .itemOrEnd

/-- A name may begin here. -/
def Expected.Names (expected : Expected) : Prop := expected = .name ∨ expected = .nameOrEnd

theorem foldlM_scalar (v : Json) (stack : List Open) {expected : Expected}
    (begins : expected.Begins) :
    [Token.scalar v].foldlM Progress.step (.reading stack expected) = Progress.place v stack := by
  obtain rfl | rfl := begins <;> simp [Progress.step]

mutual

/-- The tokens of a value put that value in its place. -/
theorem foldlM_tokenList : ∀ (v : Json) (stack : List Open) {expected : Expected},
    expected.Begins →
      (tokenList v).foldlM Progress.step (.reading stack expected) = Progress.place v stack
  | .null, stack, _, begins => foldlM_scalar _ stack begins
  | .bool _, stack, _, begins => foldlM_scalar _ stack begins
  | .number _, stack, _, begins => foldlM_scalar _ stack begins
  | .string _, stack, _, begins => foldlM_scalar _ stack begins
  | .array [], _, _, begins => by obtain rfl | rfl := begins <;> simp [tokenList, Progress.step]
  | .object [], _, _, begins => by obtain rfl | rfl := begins <;> simp [tokenList, Progress.step]
  | .array (item :: items), stack, _, begins => by
    have first := foldlM_tokenList item (.array [] :: stack) (.inr rfl)
    have others := foldlM_items items [item] stack
    obtain rfl | rfl := begins <;>
      simp [tokenList, List.foldlM_append, Progress.step, first, Progress.place, others]
  | .object (member :: members), stack, _, begins => by
    have first := foldlM_member member [] stack (.inr rfl)
    have others := foldlM_members members [member] stack
    obtain rfl | rfl := begins <;>
      simp [tokenList, List.foldlM_append, Progress.step, first, others]

theorem foldlM_items : ∀ (items before : List Json) (stack : List Open),
    (tokensOfItems items).foldlM Progress.step (.reading (.array before :: stack) .separator) =
      some (.reading (.array (items.reverse ++ before) :: stack) .separator)
  | [], _, _ => rfl
  | item :: items, before, stack => by
    have first := foldlM_tokenList item (.array before :: stack) (.inl rfl)
    have others := foldlM_items items (item :: before) stack
    simp [tokensOfItems, List.foldlM_append, Progress.step, first, Progress.place, others]

theorem foldlM_member : ∀ (member : Option String × Json) (before : List (Option String × Json))
    (stack : List Open) {expected : Expected}, expected.Names →
    (tokensOfMember member).foldlM Progress.step (.reading (.object before :: stack) expected) =
      some (.reading (.object (member :: before) :: stack) .separator)
  | (name, value), before, stack, _, names => by
    have held := foldlM_tokenList value (.member before name :: stack) (.inl rfl)
    obtain rfl | rfl := names <;>
      simp [tokensOfMember, Progress.step, held, Progress.place]

theorem foldlM_members : ∀ (members before : List (Option String × Json)) (stack : List Open),
    (tokensOfMembers members).foldlM Progress.step (.reading (.object before :: stack) .separator) =
      some (.reading (.object (members.reverse ++ before) :: stack) .separator)
  | [], _, _ => rfl
  | member :: members, before, stack => by
    have first := foldlM_member member before stack (.inl rfl)
    have others := foldlM_members members (member :: before) stack
    simp [tokensOfMembers, List.foldlM_append, Progress.step, first, others]

end

/-- The text of a value that can be written is read as that value. -/
theorem read?_pretty {v : Json} (writable : IsWritable v) :
    read? (v.pretty.toList.map some) = some v := by
  have ends : Ends [] := by
    rintro c ⟨⟩
  have cut : tokens (v.pretty.toList.map some) = some (tokenList v) := by
    have := lexes_layOut 0 v writable [] ends
    simpa [pretty, tokens] using this
  rw [read?, cut, Option.bind_some, ofTokens?, foldlM_tokenList v [] (.inl rfl)]
  rfl

end Extraction.Json
