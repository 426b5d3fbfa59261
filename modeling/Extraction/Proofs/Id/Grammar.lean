import Extraction.Proofs.Decision.Grammar

/-! The grammar of identities. A component is read exactly if digits of a number that fits in a word stand there,
with a plus sign in front or without and with blanks around them or without; a node is two components around the
first dot. Of two parts that are no components the first is named, as it stands. -/
namespace Extraction
open Decision (Spells spells_toString)

namespace Component

/-- The texts that stand for a word. -/
inductive Writes : List Char → UInt32 → Prop
  | mk {front sign digits back : List Char} {w : UInt32} (before : ∀ c ∈ front, Text.isBlank c = true)
      (after : ∀ c ∈ back, Text.isBlank c = true) (signed : sign = [] ∨ sign = ['+'])
      (spells : Spells digits w) : Writes (front ++ (sign ++ digits) ++ back) w

/-- Digits of a number that fits in a word. -/
structure Fits (digits : List Char) : Prop where
  decimal : ∀ c ∈ digits, c.isDigit = true
  value : Nat.ofDigitChars 10 digits 0 < UInt32.size

/-- What is wrong with a text that should be digits of a number that fits in a word: where such digits end, or
exceed what fits. -/
inductive Blames : List Char → ComponentFault → Prop
  | empty : Blames [] .empty
  | invalidDigit {digits rest : List Char} {c : Char} (fits : Fits digits) (stranger : c.isDigit = false) :
      Blames (digits ++ c :: rest) .invalidDigit
  | tooLarge {digits rest : List Char} {c : Char} (fits : Fits digits) (digit : c.isDigit = true)
      (exceeds : UInt32.size ≤ Nat.ofDigitChars 10 (digits ++ [c]) 0) :
      Blames (digits ++ c :: rest) .tooLarge

/-- A text without the plus sign in front of it, where anything follows the sign. -/
def unsigned : List Char → List Char
  | '+' :: c :: rest => c :: rest
  | text => text

/-- What is wrong with a part, without the blanks around it and the sign in front. -/
def Faulty (part : List Char) (fault : ComponentFault) : Prop := Blames (unsigned (Text.trim part)) fault

variable {part text digits : List Char} {w : UInt32} {fault : ComponentFault}

section Digits

theorem fits_nil : Fits [] := ⟨List.forall_mem_nil _, by decide⟩

/-- What is blamed in a text is blamed whatever follows, unless it is that nothing is there. -/
theorem Blames.append (blames : Blames text fault) (some : fault ≠ .empty) (more : List Char) :
    Blames (text ++ more) fault := by
  cases blames with
  | empty => exact absurd rfl some
  | invalidDigit fits stranger =>
    rw [List.append_assoc, List.cons_append]
    exact .invalidDigit fits stranger
  | tooLarge fits digit exceeds =>
    rw [List.append_assoc, List.cons_append]
    exact .tooLarge fits digit exceeds

/-- Digits are gathered, or the first character is blamed that cannot be gathered. -/
theorem fits_or_blames (text : List Char) :
    Fits text ∨ ∃ fault, fault ≠ .empty ∧ Blames text fault := by
  induction text using List.reverseRecOn with
  | nil => exact .inl fits_nil
  | append_singleton text c ih =>
    obtain fits | ⟨fault, some, blames⟩ := ih
    · cases digit : c.isDigit with
      | false => exact .inr ⟨.invalidDigit, by decide, .invalidDigit fits digit⟩
      | true =>
        obtain less | exceeds := Nat.lt_or_ge (Nat.ofDigitChars 10 (text ++ [c]) 0) UInt32.size
        · refine .inl ⟨List.forall_mem_append.2 ⟨fits.decimal, ?_⟩, less⟩
          exact List.forall_mem_singleton.2 digit
        · exact .inr ⟨.tooLarge, by decide, .tooLarge fits digit exceeds⟩
    · exact .inr ⟨fault, some, blames.append some [c]⟩

theorem spells_or_blames (text : List Char) : (∃ w, Spells text w) ∨ ∃ fault, Blames text fault := by
  obtain fits | ⟨fault, _, blames⟩ := fits_or_blames text
  · obtain rfl | filled := eq_or_ne text []
    · exact .inr ⟨_, .empty⟩
    · exact .inl ⟨_, filled, fits.decimal, (UInt32.toNat_ofNat_of_lt' fits.value).symm⟩
  · exact .inr ⟨fault, blames⟩

theorem unsigned_of_ne {c : Char} (plain : c ≠ '+') (rest : List Char) : unsigned (c :: rest) = c :: rest := by
  simp [unsigned, plain]

theorem readDigits_eq (text : List Char) : readDigits text =
    if unsigned text = [] then .error .empty else (unsigned text).foldlM appendDigit 0 := by
  cases text with
  | nil => rfl
  | cons c rest =>
    by_cases plus : c = '+'
    · subst plus
      cases rest <;> rfl
    · rw [unsigned_of_ne plus, if_neg (List.cons_ne_nil _ _)]
      simp [readDigits, plus]

theorem readDigits_of_spells (spells : Spells (unsigned text) w) : readDigits text = .ok w.toNat := by
  have fits : Nat.ofDigitChars 10 (unsigned text) 0 < UInt32.size := spells.value ▸ w.toNat_lt
  rw [readDigits_eq, if_neg spells.filled, foldlM_appendDigit spells.decimal fits, spells.value]

theorem readDigits_of_fits {rest : List Char} {c : Char} (fits : Fits digits)
    (split : unsigned text = digits ++ c :: rest) :
    readDigits text =
      (appendDigit (Nat.ofDigitChars 10 digits 0) c).bind fun n => rest.foldlM appendDigit n := by
  have filled : digits ++ c :: rest ≠ [] := by simp
  rw [readDigits_eq, split, if_neg filled, List.foldlM_append, foldlM_appendDigit fits.decimal fits.value]
  rfl

theorem readDigits_of_blames (blames : Blames (unsigned text) fault) : readDigits text = .error fault := by
  generalize split : unsigned text = core at blames
  cases blames with
  | empty => rw [readDigits_eq, if_pos split]
  | invalidDigit fits stranger =>
    rw [readDigits_of_fits fits split, appendDigit, stranger]
    rfl
  | @tooLarge digits rest c fits digit exceeds =>
    rw [Nat.ofDigitChars_append] at exceeds
    have exceeds : ¬ 10 * Nat.ofDigitChars 10 digits 0 + (c.toNat - '0'.toNat) < UInt32.size :=
      Nat.not_lt.2 exceeds
    rw [readDigits_of_fits fits split, appendDigit, digit]
    simp only [exceeds]
    rfl

end Digits

section Blanks

theorem exists_sign (text : List Char) :
    ∃ sign, (sign = [] ∨ sign = ['+']) ∧ text = sign ++ unsigned text := by
  cases text with
  | nil => exact ⟨[], .inl rfl, rfl⟩
  | cons c rest =>
    by_cases plus : c = '+'
    · subst plus
      cases rest with
      | nil => exact ⟨[], .inl rfl, rfl⟩
      | cons d rest => exact ⟨['+'], .inr rfl, rfl⟩
    · exact ⟨[], .inl rfl, (unsigned_of_ne plus rest).symm⟩

theorem unsigned_append {sign : List Char} (signed : sign = [] ∨ sign = ['+']) (spells : Spells digits w) :
    unsigned (sign ++ digits) = digits := by
  obtain ⟨c, rest, rfl⟩ := List.exists_cons_of_ne_nil spells.filled
  obtain rfl | rfl := signed
  · refine unsigned_of_ne ?_ rest
    rintro rfl
    cases spells.decimal '+' List.mem_cons_self
  · rfl

theorem not_isBlank_of_signed {sign : List Char} (signed : sign = [] ∨ sign = ['+']) (spells : Spells digits w) :
    ∀ c ∈ sign ++ digits, Text.isBlank c = false := by
  refine List.forall_mem_append.2 ⟨?_, fun c mem => ?_⟩
  · obtain rfl | rfl := signed
    · exact List.forall_mem_nil _
    · exact List.forall_mem_singleton.2 rfl
  · exact Bool.eq_false_iff.2 (not_isBlank_of_isDigit (spells.decimal c mem))

theorem writes_iff : Writes part w ↔ Spells (unsigned (Text.trim part)) w := by
  constructor
  · rintro ⟨before, after, signed, spells⟩
    have visible := not_isBlank_of_signed signed spells
    rw [Text.trim_append (List.append_ne_nil_of_right_ne_nil _ spells.filled) before after
      (fun c head => visible c (List.mem_of_mem_head? head)) fun c last => visible c (List.mem_of_getLast? last),
      unsigned_append signed spells]
    exact spells
  · intro spells
    obtain ⟨front, back, split, before, after⟩ := Text.exists_trim part
    obtain ⟨sign, signed, split'⟩ := exists_sign (Text.trim part)
    rw [split, split']
    exact .mk before after signed spells

end Blanks

theorem Writes.of_spells (spells : Spells digits w) : Writes digits w := by
  have writes := Writes.mk (List.forall_mem_nil _) (List.forall_mem_nil _) (.inl rfl) spells
  rwa [List.nil_append, List.append_nil] at writes

theorem writes_or_faulty (part : List Char) : (∃ w, Writes part w) ∨ ∃ fault, Faulty part fault := by
  simp only [writes_iff]
  exact spells_or_blames _

theorem read_of_writes (writes : Writes part w) : read part = .ok w := by
  rw [read, readDigits_of_spells (writes_iff.1 writes)]
  exact congrArg _ UInt32.ofNat_toNat

theorem read_of_faulty (faulty : Faulty part fault) :
    read part = .error (.invalidComponent (String.ofList part) fault) := by
  rw [read, readDigits_of_blames faulty]

theorem read_eq_ok : read part = .ok w ↔ Writes part w := by
  refine ⟨fun ok => ?_, read_of_writes⟩
  obtain ⟨w', writes⟩ | ⟨fault, faulty⟩ := writes_or_faulty part
  · obtain rfl := Except.ok.inj (ok.symm.trans (read_of_writes writes))
    exact writes
  · cases ok.symm.trans (read_of_faulty faulty)

theorem Faulty.not_writes (faulty : Faulty part fault) : ∀ w, ¬ Writes part w := by
  intro w writes
  cases (read_of_writes writes).symm.trans (read_of_faulty faulty)

end Component

/-- The text before the first dot and the text behind it. -/
structure Splits (text owner index : List Char) : Prop where
  split : text = owner ++ '.' :: index
  first : '.' ∉ owner

/-- The first of two parts that is no component. -/
inductive FirstBad (owner index : List Char) : List Char → Prop
  | owner (bad : ∀ w, ¬ Component.Writes owner w) : FirstBad owner index owner
  | index {w : UInt32} (good : Component.Writes owner w) (bad : ∀ w, ¬ Component.Writes index w) :
      FirstBad owner index index

variable {text owner index : List Char}

theorem splitDot?_cons {c : Char} (plain : c ≠ '.') (text : List Char) :
    splitDot? (c :: text) = (splitDot? text).map fun parts => (c :: parts.1, parts.2) := by
  rw [splitDot?]
  exact plain

theorem splitDot?_of_splits (splits : Splits text owner index) : splitDot? text = some (owner, index) := by
  obtain ⟨rfl, first⟩ := splits
  induction owner with
  | nil => rfl
  | cons c owner ih =>
    rw [List.mem_cons, not_or] at first
    rw [List.cons_append, splitDot?_cons (Ne.symm first.1), ih first.2]
    rfl

theorem splitDot?_of_notMem (absent : '.' ∉ text) : splitDot? text = none := by
  induction text with
  | nil => rfl
  | cons c text ih =>
    rw [List.mem_cons, not_or] at absent
    rw [splitDot?_cons (Ne.symm absent.1), ih absent.2]
    rfl

theorem exists_splits (dotted : '.' ∈ text) : ∃ owner index, Splits text owner index := by
  obtain ⟨owner, index, split, first⟩ := List.eq_append_cons_of_mem dotted
  exact ⟨owner, index, split, first⟩

namespace NodeId

variable {text : String} {id : NodeId} {e : IdError}

theorem read_of_splits (splits : Splits text.toList owner index) :
    read text = (Component.read owner).bind fun c => (Component.read index).map fun i => ⟨⟨c⟩, i⟩ := by
  rw [read, splitDot?_of_splits splits]
  dsimp only
  cases Component.read owner with
  | error e => rfl
  | ok c => cases Component.read index <;> rfl

theorem read_of_notMem (absent : '.' ∉ text.toList) : read text = .error (.missingDot text) := by
  rw [read, splitDot?_of_notMem absent]

theorem read_eq_ok : read text = .ok id ↔ ∃ owner index, Splits text.toList owner index ∧
    Component.Writes owner id.owner.value ∧ Component.Writes index id.index := by
  constructor
  · intro ok
    by_cases dotted : '.' ∈ text.toList
    · obtain ⟨owner, index, splits⟩ := exists_splits dotted
      rw [read_of_splits splits] at ok
      obtain ⟨c, first, later⟩ := exists_of_bind_eq_ok ok
      obtain ⟨i, second, rfl⟩ := exists_of_map_eq_ok later
      exact ⟨owner, index, splits, Component.read_eq_ok.1 first, Component.read_eq_ok.1 second⟩
    · cases ok.symm.trans (read_of_notMem dotted)
  · rintro ⟨owner, index, splits, first, second⟩
    rw [read_of_splits splits, Component.read_of_writes first, Component.read_of_writes second]
    rfl

theorem read_eq_error : read text = .error e ↔ '.' ∉ text.toList ∧ e = .missingDot text ∨
    ∃ owner index part fault, Splits text.toList owner index ∧ FirstBad owner index part ∧
      Component.Faulty part fault ∧ e = .invalidComponent (String.ofList part) fault := by
  constructor
  · intro failed
    by_cases dotted : '.' ∈ text.toList
    · obtain ⟨owner, index, splits⟩ := exists_splits dotted
      obtain ⟨c, good⟩ | ⟨fault, faulty⟩ := Component.writes_or_faulty owner
      · obtain ⟨i, good'⟩ | ⟨fault, faulty⟩ := Component.writes_or_faulty index
        · have ok : read text = .ok ⟨⟨c⟩, i⟩ := read_eq_ok.2 ⟨owner, index, splits, good, good'⟩
          cases failed.symm.trans ok
        · refine .inr ⟨owner, index, index, fault, splits, .index good faulty.not_writes, faulty, ?_⟩
          rw [read_of_splits splits, Component.read_of_writes good, Component.read_of_faulty faulty] at failed
          exact (Except.error.inj failed).symm
      · refine .inr ⟨owner, index, owner, fault, splits, .owner faulty.not_writes, faulty, ?_⟩
        rw [read_of_splits splits, Component.read_of_faulty faulty] at failed
        exact (Except.error.inj failed).symm
    · exact .inl ⟨dotted, Except.error.inj (failed.symm.trans (read_of_notMem dotted))⟩
  · rintro (⟨absent, rfl⟩ | ⟨owner, index, part, fault, splits, bad, faulty, rfl⟩)
    · exact read_of_notMem absent
    · rw [read_of_splits splits]
      cases bad with
      | owner => rw [Component.read_of_faulty faulty]; rfl
      | index good => rw [Component.read_of_writes good, Component.read_of_faulty faulty]; rfl

/-- A node is read from what it is written as. -/
theorem read_text (n : NodeId) : read n.text = .ok n := by
  refine read_eq_ok.2 ⟨n.owner.text.toList, (toString n.index.toNat).toList, ⟨?_, ?_⟩, ?_, ?_⟩
  · simp [text, String.toList_append]
  · intro dot
    cases (spells_toString n.owner.value).decimal '.' dot
  · exact Component.Writes.of_spells (spells_toString n.owner.value)
  · exact Component.Writes.of_spells (spells_toString n.index)

end NodeId

/-- Identities of classes and nodes are read from what they are written as. A text is read as a node exactly if it
holds a dot, and what stands in front of the first dot and what stands behind it are digits of numbers that fit in
a word, with a plus sign in front or without and with blanks around them or without. Without a dot the whole text
is refused, and otherwise the first of the two parts that is no component, as it stands. -/
theorem identities_read :
    (∀ c : ClassId, ClassId.read c.text = .ok c) ∧ (∀ n : NodeId, NodeId.read n.text = .ok n) ∧
      ∀ text : String,
        (∀ id, NodeId.read text = .ok id ↔ ∃ owner index, Splits text.toList owner index ∧
          Component.Writes owner id.owner.value ∧ Component.Writes index id.index) ∧
        ∀ e, NodeId.read text = .error e ↔ '.' ∉ text.toList ∧ e = .missingDot text ∨
          ∃ owner index part fault, Splits text.toList owner index ∧ FirstBad owner index part ∧
            Component.Faulty part fault ∧ e = .invalidComponent (String.ofList part) fault :=
  ⟨fun c => ClassId.read_toString c.value, NodeId.read_text,
    fun _ => ⟨fun _ => NodeId.read_eq_ok, fun _ => NodeId.read_eq_error⟩⟩

-- Only the first dot parts a text, and what is named has its blanks.
example : NodeId.read "+01. 2.3" = .error (.invalidComponent " 2.3" .invalidDigit) := by decide +kernel

end Extraction
