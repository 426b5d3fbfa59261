import Extraction.Decision
import Extraction.Proofs.Collections
import Extraction.Proofs.Decimal.Digits
import Extraction.Proofs.Double.Nearest

/-! The grammar of decisions. A line names a variable, alone or with a gap and a numeral behind it, and nothing
else; the value decides if it rounds to 0 or 1. A text is read exactly if each of its lines says nothing or
decides, and otherwise the first line that does neither is named. -/
namespace Extraction.Decision

/-- The digits write the word, with zeros in front or without. -/
structure Spells (digits : List Char) (w : UInt32) : Prop where
  filled : digits ≠ []
  decimal : ∀ c ∈ digits, c.isDigit = true
  value : Nat.ofDigitChars 10 digits 0 = w.toNat

/-- The names of variables. -/
inductive Names : List Char → Variable → Prop
  | node {owner index : List Char} {c i : UInt32} (spells : Spells owner c) (spells' : Spells index i) :
      Names ('N' :: '_' :: (owner ++ '_' :: index)) (.node ⟨⟨c⟩, i⟩)
  | eclass {digits : List Char} {c : UInt32} (spells : Spells digits c) :
      Names ('A' :: '_' :: digits) (.eclass ⟨c⟩)

/-- What stands behind a variable: nothing, or a gap and a numeral. -/
inductive Values : List Char → Option Float → Prop
  | bare : Values [] none
  | valued {gap text : List Char} {numeral : Numeral} (wide : gap ≠ []) (blank : ∀ c ∈ gap, isGap c = true)
      (read : Numeral.scan text = some (numeral, [])) : Values (gap ++ text) (some numeral.value)

/-- A line that names a variable, with or without a value. -/
inductive Shaped : List Char → Variable → Option Float → Prop
  | mk {name rest : List Char} {v : Variable} {value : Option Float} (names : Names name v)
      (values : Values rest value) : Shaped (name ++ rest) v value

/-- The value lies between the halves before 0 and behind 1. -/
def InRange (x : Float) : Prop := -0.5 < x ∧ x < 1.5

instance (x : Float) : Decidable (InRange x) := inferInstanceAs (Decidable (_ ∧ _))

/-- The line decides. A variable without a value is not used. -/
def Sets (text : List Char) (d : Decision) : Prop :=
  ∃ v value, Shaped text v value ∧ (∀ x ∈ value, InRange x) ∧ d = v.decide (value.any fun x => 0.5 ≤ x)

/-- What is wrong with a line: its value, or else its shape. -/
inductive Faulty (line : Nat) (text : List Char) : DecisionError → Prop
  | value {v : Variable} {x : Float} (shaped : Shaped text v (some x)) (outside : ¬ InRange x) :
      Faulty line text (.invalidValue line x)
  | shape (shapeless : ∀ v value, ¬ Shaped text v value) :
      Faulty line text (.malformed line (String.ofList text))

/-- The lines that say something, without blanks around them. -/
def telling (raws : List (List Char)) : List (List Char) :=
  (raws.map Text.trim).filter fun text => !isSilent text

/-- The line is faulty and the lines before it, which are numbered from `n` on, are not. -/
structure Offends (n : Nat) (before : List (List Char)) (raw : List Char) (e : DecisionError) : Prop where
  fine : ∀ text ∈ telling before, ∃ d, Sets text d
  said : isSilent (Text.trim raw) = false
  faulty : Faulty (n + before.length) (Text.trim raw) e

variable {text rest : List Char} {w : UInt32} {v : Variable} {value : Option Float} {x : Float}

theorem spells_toString (w : UInt32) : Spells (toString w.toNat).toList w := by
  rw [Nat.toString_eq_repr, Nat.toList_repr]
  exact ⟨Nat.toDigits_ne_nil, fun c => isDigit_of_mem_toDigits, Nat.ofDigitChars_ten_toDigits⟩

section Scanning

theorem scanWord_eq_some : scanWord text = some (w, rest) ↔
    ∃ digits, text = digits ++ rest ∧ Spells digits w ∧ ∀ c, rest.head? = some c → c.isDigit = false := by
  constructor
  · intro read
    rw [scanWord, List.span_eq_takeWhile_dropWhile] at read
    dsimp only at read
    split at read
    · cases read
    · rename_i fits
      rw [Bool.or_eq_true, not_or, List.isEmpty_iff, decide_eq_true_iff, Nat.not_le] at fits
      obtain ⟨rfl, rfl⟩ := Prod.mk.inj (Option.some.inj read)
      refine ⟨_, List.takeWhile_append_dropWhile.symm, ⟨fits.1, fun c => List.mem_takeWhile_imp, ?_⟩, ?_⟩
      · exact (UInt32.toNat_ofNat_of_lt' fits.2).symm
      · intro c head
        have stops := List.head?_dropWhile_not Char.isDigit text
        rw [head] at stops
        simpa using stops
  · rintro ⟨digits, rfl, ⟨filled, all, value⟩, ends⟩
    have value : Numeral.digitsValue digits = w.toNat := value
    have some : digits.isEmpty = false := by simpa using filled
    have fits : ¬ UInt32.size ≤ w.toNat := Nat.not_le.2 w.toNat_lt
    rw [scanWord, span_isDigit all ends]
    simp only [some, value, fits, decide_false, Bool.or_self, Bool.false_eq_true, if_false]
    rw [show w.toNat.toUInt32 = w from UInt32.ofNat_toNat]

theorem scanVariable_eq_some : scanVariable text = some (v, rest) ↔
    ∃ name, text = name ++ rest ∧ Names name v ∧ ∀ c, rest.head? = some c → c.isDigit = false := by
  constructor
  · intro read
    unfold scanVariable at read
    split at read
    · simp only [Option.bind_eq_bind, Option.bind_eq_some_iff, Prod.exists] at read
      obtain ⟨c, tail, first, read⟩ := read
      split at read
      · obtain ⟨⟨i, tail'⟩, second, same⟩ := Option.map_eq_some_iff.1 read
        obtain ⟨rfl, rfl⟩ := Prod.mk.inj same
        obtain ⟨owner, rfl, spells, _⟩ := scanWord_eq_some.1 first
        obtain ⟨index, rfl, spells', ends⟩ := scanWord_eq_some.1 second
        exact ⟨_, by simp, .node spells spells', ends⟩
      · cases read
    · obtain ⟨⟨c, tail⟩, first, same⟩ := Option.map_eq_some_iff.1 read
      obtain ⟨rfl, rfl⟩ := Prod.mk.inj same
      obtain ⟨digits, rfl, spells, ends⟩ := scanWord_eq_some.1 first
      exact ⟨_, rfl, .eclass spells, ends⟩
    · cases read
  · rintro ⟨name, rfl, names, ends⟩
    cases names with
    | @node owner index c i spells spells' =>
      have first : scanWord (owner ++ '_' :: (index ++ rest)) = some (c, '_' :: (index ++ rest)) :=
        scanWord_eq_some.2 ⟨owner, rfl, spells, by rintro _ ⟨⟩; rfl⟩
      have second : scanWord (index ++ rest) = some (i, rest) := scanWord_eq_some.2 ⟨index, rfl, spells', ends⟩
      simp [scanVariable, first, second]
    | @eclass digits c spells =>
      have first : scanWord (digits ++ rest) = some (c, rest) := scanWord_eq_some.2 ⟨digits, rfl, spells, ends⟩
      simp [scanVariable, first]

/-- Nothing that begins with a gap is a numeral. -/
theorem scan_of_isGap {c : Char} (gap : isGap c = true) : Numeral.scan (c :: rest) = none := by
  rw [isGap, Bool.or_eq_true, decide_eq_true_iff, decide_eq_true_iff] at gap
  rcases gap with rfl | rfl <;> simp [Numeral.scan, Numeral.scanSign, Numeral.scanMagnitude, Numeral.afterName?]

theorem readValue?_eq_some : readValue? rest = some value ↔ Values rest value := by
  constructor
  · intro read
    unfold readValue? at read
    split at read
    · obtain rfl := Option.some.inj read
      exact .bare
    · rename_i c rest
      split at read
      · rename_i gap
        split at read
        · rename_i numeral scanned
          obtain rfl := Option.some.inj read
          have split : c :: rest = (c :: rest.takeWhile isGap) ++ rest.dropWhile isGap := by
            rw [List.cons_append, List.takeWhile_append_dropWhile]
          rw [split]
          refine .valued (List.cons_ne_nil _ _) (List.forall_mem_cons.2 ⟨gap, fun d => ?_⟩) scanned
          exact List.mem_takeWhile_imp
        · cases read
      · cases read
  · rintro (_ | @⟨gap, text, numeral, wide, blank, scanned⟩)
    · rfl
    · obtain ⟨c, gap, rfl⟩ := List.exists_cons_of_ne_nil wide
      obtain ⟨first, others⟩ := List.forall_mem_cons.1 blank
      have dropped : (gap ++ text).dropWhile isGap = text := by
        rw [List.dropWhile_append_of_pos others]
        cases text with
        | nil => rfl
        | cons d text =>
          refine List.dropWhile_cons_of_neg fun again => ?_
          cases scanned.symm.trans (scan_of_isGap again)
      rw [List.cons_append, readValue?, if_pos first, dropped, scanned]

/-- No digit begins what stands behind a variable. -/
theorem Values.ends (h : Values rest value) : ∀ c, rest.head? = some c → c.isDigit = false := by
  cases h with
  | bare => exact fun c none => by cases none
  | @valued gap text _ wide blank _ =>
    obtain ⟨d, gap, rfl⟩ := List.exists_cons_of_ne_nil wide
    rintro _ ⟨⟩
    have gap := blank d List.mem_cons_self
    rw [isGap, Bool.or_eq_true, decide_eq_true_iff, decide_eq_true_iff] at gap
    rcases gap with rfl | rfl <;> rfl

/-- The variable of a line and its value. -/
def shape? (text : List Char) : Option (Variable × Option Float) :=
  (scanVariable text).bind fun parts => (readValue? parts.2).map fun value => (parts.1, value)

theorem shape?_eq_some : shape? text = some (v, value) ↔ Shaped text v value := by
  rw [shape?, Option.bind_eq_some_iff]
  constructor
  · rintro ⟨⟨v, rest⟩, scanned, read⟩
    obtain ⟨value, values, same⟩ := Option.map_eq_some_iff.1 read
    obtain ⟨rfl, rfl⟩ := Prod.mk.inj same
    obtain ⟨name, rfl, names, _⟩ := scanVariable_eq_some.1 scanned
    exact ⟨names, readValue?_eq_some.1 values⟩
  · rintro ⟨names, values⟩
    refine ⟨_, scanVariable_eq_some.2 ⟨_, rfl, names, values.ends⟩, ?_⟩
    rw [readValue?_eq_some.2 values]
    rfl

theorem shape?_eq_none : shape? text = none ↔ ∀ v value, ¬ Shaped text v value := by
  rw [Option.eq_none_iff_forall_ne_some, Prod.forall]
  simp only [ne_eq, shape?_eq_some]

end Scanning

section Rounding

theorem roundValue?_of_inRange (inside : InRange x) : roundValue? x = some (decide (0.5 ≤ x)) := by
  obtain ⟨low, high⟩ := inside
  by_cases up : (0.5 : Float) ≤ x
  · have above : ¬ x < 0.5 := fun less => Double.not_le_of_lt less up
    simp [roundValue?, up, above, high]
  · have below : x < 0.5 := Double.lt_of_not_le (Double.not_isNaN_of_lt low).2 (by decide +kernel) up
    simp [roundValue?, up, below, low]

theorem roundValue?_of_not_inRange (outside : ¬ InRange x) : roundValue? x = none := by
  have low : ¬ (-0.5 < x ∧ x < 0.5) := fun ⟨least, below⟩ =>
    outside ⟨least, OrderedCost.trans below (by decide +kernel)⟩
  have high : ¬ (0.5 ≤ x ∧ x < 1.5) := fun ⟨up, most⟩ =>
    outside ⟨Double.lt_of_lt_of_le (by decide +kernel) up, most⟩
  simp [roundValue?, low, high]

end Rounding

section Lines
variable {n : Nat} {d : Decision} {e : DecisionError}

theorem readLine_eq (n : Nat) (text : List Char) : readLine n text =
    match shape? text with
    | none => .error (.malformed n (String.ofList text))
    | some (v, none) => .ok (v.decide false)
    | some (v, some x) =>
      match roundValue? x with
      | none => .error (.invalidValue n x)
      | some used => .ok (v.decide used) := by
  rw [readLine, shape?]
  cases scanVariable text with
  | none => rfl
  | some parts =>
    dsimp only [Option.bind_some]
    cases readValue? parts.2 with
    | none => rfl
    | some value => cases value <;> rfl

theorem readLine_of_sets (sets : Sets text d) : readLine n text = .ok d := by
  obtain ⟨v, value, shaped, inside, rfl⟩ := sets
  rw [readLine_eq, shape?_eq_some.2 shaped]
  cases value with
  | none => rfl
  | some x =>
    have inside := inside x rfl
    dsimp only
    rw [roundValue?_of_inRange inside]
    rfl

theorem readLine_of_faulty (faulty : Faulty n text e) : readLine n text = .error e := by
  cases faulty with
  | value shaped outside =>
    rw [readLine_eq, shape?_eq_some.2 shaped]
    dsimp only
    rw [roundValue?_of_not_inRange outside]
  | shape shapeless => rw [readLine_eq, shape?_eq_none.2 shapeless]

theorem sets_or_faulty (n : Nat) (text : List Char) : (∃ d, Sets text d) ∨ ∃ e, Faulty n text e := by
  by_cases shaped : ∃ v value, Shaped text v value
  · obtain ⟨v, value, shaped⟩ := shaped
    by_cases inside : ∀ x ∈ value, InRange x
    · exact .inl ⟨_, v, value, shaped, inside, rfl⟩
    · push Not at inside
      obtain ⟨x, rfl, outside⟩ := inside
      exact .inr ⟨_, .value shaped outside⟩
  · push Not at shaped
    exact .inr ⟨_, .shape shaped⟩

theorem readLine_eq_ok : readLine n text = .ok d ↔ Sets text d := by
  refine ⟨fun read => ?_, readLine_of_sets⟩
  obtain ⟨d', sets⟩ | ⟨e, faulty⟩ := sets_or_faulty n text
  · obtain rfl := Except.ok.inj (read.symm.trans (readLine_of_sets sets))
    exact sets
  · cases read.symm.trans (readLine_of_faulty faulty)

theorem readLine_eq_error : readLine n text = .error e ↔ Faulty n text e := by
  refine ⟨fun read => ?_, readLine_of_faulty⟩
  obtain ⟨d, sets⟩ | ⟨e', faulty⟩ := sets_or_faulty n text
  · cases read.symm.trans (readLine_of_sets sets)
  · obtain rfl := Except.error.inj (read.symm.trans (readLine_of_faulty faulty))
    exact faulty

theorem telling_of_silent {raw : List Char} (silent : isSilent (Text.trim raw) = true)
    (raws : List (List Char)) : telling (raw :: raws) = telling raws := by
  simp [telling, silent]

theorem telling_cons {raw : List Char} (said : isSilent (Text.trim raw) = false) (raws : List (List Char)) :
    telling (raw :: raws) = Text.trim raw :: telling raws := by
  simp [telling, said]

variable {raws : List (List Char)}

theorem readLines_of_silent {raw : List Char} (silent : isSilent (Text.trim raw) = true) :
    readLines n (raw :: raws) = readLines (n + 1) raws := by
  rw [readLines]
  exact if_pos silent

theorem readLines_of_said {raw : List Char} (said : isSilent (Text.trim raw) = false) :
    readLines n (raw :: raws) = (readLine n (Text.trim raw)).bind fun d =>
      (readLines (n + 1) raws).map (d :: ·) := by
  rw [readLines, said, if_neg Bool.false_ne_true]
  cases readLine n (Text.trim raw) with
  | error e => rfl
  | ok d => cases readLines (n + 1) raws <;> rfl

theorem readLines_eq_ok {decisions : List Decision} :
    readLines n raws = .ok decisions ↔ List.Forall₂ Sets (telling raws) decisions := by
  induction raws generalizing n decisions with
  | nil =>
    have nothing : telling [] = [] := rfl
    rw [readLines, nothing, List.forall₂_nil_left_iff, Except.ok.injEq, eq_comm]
  | cons raw raws ih =>
    cases said : isSilent (Text.trim raw) with
    | true => rw [readLines_of_silent said, telling_of_silent said, ih]
    | false =>
      rw [readLines_of_said said, telling_cons said, List.forall₂_cons_left_iff]
      constructor
      · intro read
        obtain ⟨d, first, later⟩ := exists_of_bind_eq_ok read
        obtain ⟨others, rest, rfl⟩ := exists_of_map_eq_ok later
        exact ⟨d, others, readLine_eq_ok.1 first, ih.1 rest, rfl⟩
      · rintro ⟨d, others, first, rest, rfl⟩
        rw [readLine_eq_ok.2 first, ih.2 rest]
        rfl

theorem telling_subset_cons (raw : List Char) (raws : List (List Char)) :
    telling raws ⊆ telling (raw :: raws) := by
  intro text mem
  cases said : isSilent (Text.trim raw) with
  | true => rwa [telling_of_silent said]
  | false =>
    rw [telling_cons said]
    exact List.mem_cons_of_mem _ mem

variable {before : List (List Char)} {first raw : List Char}

theorem Offends.tail (offends : Offends n (first :: before) raw e) : Offends (n + 1) before raw e := by
  obtain ⟨fine, said, faulty⟩ := offends
  rw [List.length_cons, Nat.add_comm before.length, ← Nat.add_assoc] at faulty
  exact ⟨fun text mem => fine text (telling_subset_cons first before mem), said, faulty⟩

theorem Offends.cons (offends : Offends (n + 1) before raw e)
    (fine : isSilent (Text.trim first) = false → ∃ d, Sets (Text.trim first) d) :
    Offends n (first :: before) raw e := by
  obtain ⟨others, said, faulty⟩ := offends
  rw [Nat.add_assoc, Nat.add_comm 1] at faulty
  refine ⟨?_, said, faulty⟩
  cases silent : isSilent (Text.trim first) with
  | true => rwa [telling_of_silent silent]
  | false =>
    rw [telling_cons silent, List.forall_mem_cons]
    exact ⟨fine silent, others⟩

theorem exists_offends (failed : readLines n raws = .error e) :
    ∃ before raw after, raws = before ++ raw :: after ∧ Offends n before raw e := by
  induction raws generalizing n with
  | nil => cases failed
  | cons first raws ih =>
    cases said : isSilent (Text.trim first) with
    | true =>
      rw [readLines_of_silent said] at failed
      obtain ⟨before, raw, after, rfl, offends⟩ := ih failed
      refine ⟨first :: before, raw, after, rfl, offends.cons fun silent => ?_⟩
      cases said.symm.trans silent
    | false =>
      rw [readLines_of_said said] at failed
      cases read : readLine n (Text.trim first) with
      | error e' =>
        rw [read] at failed
        obtain rfl := Except.error.inj failed
        exact ⟨[], first, raws, rfl, nofun, said, readLine_eq_error.1 read⟩
      | ok d =>
        rw [read] at failed
        cases rest : readLines (n + 1) raws with
        | ok others =>
          rw [rest] at failed
          cases failed
        | error e' =>
          rw [rest] at failed
          obtain rfl := Except.error.inj failed
          obtain ⟨before, raw, after, rfl, offends⟩ := ih rest
          exact ⟨first :: before, raw, after, rfl, offends.cons fun _ => ⟨d, readLine_eq_ok.1 read⟩⟩

theorem Offends.readLines_eq (offends : Offends n before raw e) (after : List (List Char)) :
    readLines n (before ++ raw :: after) = .error e := by
  induction before generalizing n with
  | nil =>
    have faulty : Faulty n (Text.trim raw) e := offends.faulty
    rw [List.nil_append, readLines_of_said offends.said, readLine_of_faulty faulty]
    rfl
  | cons first before ih =>
    rw [List.cons_append]
    cases said : isSilent (Text.trim first) with
    | true => rw [readLines_of_silent said, ih offends.tail]
    | false =>
      obtain ⟨d, sets⟩ := offends.fine (Text.trim first) (by rw [telling_cons said]; exact List.mem_cons_self)
      rw [readLines_of_said said, readLine_of_sets sets, ih offends.tail]
      rfl

theorem readLines_eq_error : readLines n raws = .error e ↔
    ∃ before raw after, raws = before ++ raw :: after ∧ Offends n before raw e := by
  refine ⟨exists_offends, ?_⟩
  rintro ⟨before, raw, after, rfl, offends⟩
  exact offends.readLines_eq after

/-- Lines can be read exactly if each that says something decides. -/
theorem exists_readLines : (∃ decisions, readLines n raws = .ok decisions) ↔
    ∀ text ∈ telling raws, ∃ d, Sets text d := by
  simp only [readLines_eq_ok, exists_forall₂_iff]

end Lines

/-- A text is read exactly if each of its lines, without the blanks around it, is empty, begins with a number sign
or decides; then the decisions are those of its lines in their order. Otherwise the first line that does not is
named by its number among all lines: by its value if only that is out of range, and else as it stands. The values
in range are those that round to 0 or 1, and what rounds to 1 is set to 1. -/
theorem readAll_decides (text : String) :
    ((∃ decisions, readAll text = .ok decisions) ↔
        ∀ line ∈ telling (Text.lines text.toList), ∃ d, Sets line d) ∧
      (∀ decisions, readAll text = .ok decisions ↔
        List.Forall₂ Sets (telling (Text.lines text.toList)) decisions) ∧
      (∀ e, readAll text = .error e ↔ ∃ before raw after,
        Text.lines text.toList = before ++ raw :: after ∧ Offends 1 before raw e) ∧
      ∀ x, (InRange x ↔ Double.nearestWhole? x = some 0 ∨ Double.nearestWhole? x = some 1) ∧
        (InRange x → (0.5 ≤ x ↔ Double.nearestWhole? x = some 1)) :=
  ⟨exists_readLines, fun _ => readLines_eq_ok, fun _ => readLines_eq_error,
    fun _ => ⟨Double.between_iff, Double.half_le_iff⟩⟩

end Extraction.Decision
