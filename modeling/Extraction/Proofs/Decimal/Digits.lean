import Extraction.Id.Reader
import Extraction.Json.Number
import Extraction.Proofs.Text.Lines
import Mathlib.Data.List.TakeDrop
import Mathlib.Data.List.TakeWhile

/-! Numbers written in plain digits and read again: as the words of a document, as the components of an
identity, and as identities of classes. -/
namespace Extraction

theorem isDigit_of_mem_toDigits {n : Nat} {c : Char} (mem : c ∈ Nat.toDigits 10 n) : c.isDigit = true :=
  Nat.isDigit_of_mem_toDigits (by decide) (by decide) mem

/-- Only zero is written with a zero in front. -/
theorem head?_toDigits_ne_zero {n : Nat} (pos : 0 < n) : (Nat.toDigits 10 n).head? ≠ some '0' := by
  induction n using Nat.strongRecOn with
  | ind n ih =>
    rw [Nat.toDigits_eq_if (by decide)]
    split
    · simp
      omega
    · rw [List.head?_append, List.head?_eq_some_head Nat.toDigits_ne_nil, Option.some_or,
        ← List.head?_eq_some_head]
      exact ih (n / 10) (by omega) (by omega)

theorem Numeral.digitsValue_toDigits (n : Nat) : Numeral.digitsValue (Nat.toDigits 10 n) = n :=
  Nat.ofDigitChars_ten_toDigits

/-- What a span leaves is not changed by more text behind it, where the span does not go on in that text. -/
theorem span_append {p : Char → Bool} {rest : List Char} (ends : ∀ c, rest.head? = some c → p c = false)
    (text : List Char) : (text ++ rest).span p = ((text.span p).1, (text.span p).2 ++ rest) := by
  simp only [List.span_eq_takeWhile_dropWhile]
  induction text with
  | nil =>
    cases rest with
    | nil => rfl
    | cons c rest => simp [ends c rfl]
  | cons c text ih =>
    obtain ⟨took, dropped⟩ := Prod.mk.inj ih
    cases digit : p c <;> simp [digit, took, dropped]

theorem span_isDigit {digits rest : List Char} (all : ∀ c ∈ digits, c.isDigit = true)
    (ends : ∀ c, rest.head? = some c → c.isDigit = false) :
    (digits ++ rest).span Char.isDigit = (digits, rest) := by
  rw [span_append ends, List.span_eq_takeWhile_dropWhile, List.takeWhile_eq_self_iff.2 all,
    List.dropWhile_eq_nil_iff.2 all, List.nil_append]

namespace Json

theorem word?_toString {n : Nat} (fits : n < UInt64.size) : word? (toString n) = some n := by
  have digits : (Nat.toDigits 10 n).all Char.isDigit = true :=
    List.all_eq_true.2 fun c => isDigit_of_mem_toDigits
  have some : (Nat.toDigits 10 n).isEmpty = false := by simp
  simp only [word?, Nat.toString_eq_repr, Nat.toList_repr, Numeral.digitsValue_toDigits, digits, some,
    fits]
  rfl

theorem isSome_numberParts?_toString (n : Nat) : (numberParts? (toString n).toList).isSome := by
  have all : ∀ c ∈ Nat.toDigits 10 n, c.isDigit = true := fun c => isDigit_of_mem_toDigits
  have whole : (Nat.toDigits 10 n).span Char.isDigit = (Nat.toDigits 10 n, []) := by
    have whole := @span_isDigit _ [] all fun c none => by cases none
    rwa [List.append_nil] at whole
  have plain : ((Nat.toDigits 10 n).head? = some '0' && 1 < (Nat.toDigits 10 n).length) = false := by
    obtain rfl | pos := Nat.eq_zero_or_pos n
    · rfl
    · simp [head?_toDigits_ne_zero pos]
  have some : (Nat.toDigits 10 n).isEmpty = false := by simp
  have unsigned : ∀ rest, Nat.toDigits 10 n ≠ '-' :: rest := by
    intro rest signed
    have minus := all '-' (by simp [signed])
    cases minus
  rw [Nat.toString_eq_repr, Nat.toList_repr, numberParts?]
  · simp only [whole, some, plain]
    rfl
  · exact unsigned

end Json

namespace Component

theorem le_ofDigitChars (digits : List Char) (acc : Nat) : acc ≤ Nat.ofDigitChars 10 digits acc := by
  rw [Nat.ofDigitChars_eq_ofDigitChars_zero]
  have : 0 < 10 ^ digits.length := Nat.pow_pos (by decide)
  have := Nat.le_mul_of_pos_left acc this
  omega

/-- Digits are gathered into the number they stand for, as long as it fits. -/
theorem foldlM_appendDigit {digits : List Char} {acc : Nat} (all : ∀ c ∈ digits, c.isDigit = true)
    (fits : Nat.ofDigitChars 10 digits acc < UInt32.size) :
    digits.foldlM appendDigit acc = .ok (Nat.ofDigitChars 10 digits acc) := by
  induction digits generalizing acc with
  | nil => rfl
  | cons c digits ih =>
    rw [Nat.ofDigitChars_cons] at fits ⊢
    have first : appendDigit acc c = .ok (10 * acc + (c.toNat - '0'.toNat)) := by
      have below := Nat.lt_of_le_of_lt (le_ofDigitChars digits _) fits
      simp only [appendDigit, all c List.mem_cons_self, below]
      rfl
    rw [List.foldlM_cons, first]
    exact ih (fun d mem => all d (List.mem_cons_of_mem c mem)) fits

theorem not_isBlank_of_isDigit {c : Char} (digit : c.isDigit = true) : ¬ Text.isBlank c = true := by
  simp only [Char.isDigit, Bool.and_eq_true, decide_eq_true_eq, ge_iff_le,
    UInt32.le_iff_toNat_le] at digit
  simp only [Text.isBlank, Bool.or_eq_true, Bool.and_eq_true, decide_eq_true_eq, Char.le_def,
    Char.ext_iff, UInt32.le_iff_toNat_le, ← UInt32.toNat_inj]
  simp only [Char.toNat_val, Char.reduceToNat] at *
  omega

theorem trim_of_digits {digits : List Char} (all : ∀ c ∈ digits, c.isDigit = true) :
    Text.trim digits = digits :=
  Text.trim_of_forall fun c mem => Bool.eq_false_iff.2 (not_isBlank_of_isDigit (all c mem))

theorem read_toDigits {n : Nat} (fits : n < UInt32.size) :
    read (Nat.toDigits 10 n) = .ok n.toUInt32 := by
  have all : ∀ c ∈ Nat.toDigits 10 n, c.isDigit = true := fun c => isDigit_of_mem_toDigits
  have value : (Nat.toDigits 10 n).foldlM appendDigit 0 = .ok n := by
    have value := @foldlM_appendDigit _ 0 all (by rwa [Nat.ofDigitChars_ten_toDigits])
    rwa [Nat.ofDigitChars_ten_toDigits] at value
  have unsigned : ∀ rest, Nat.toDigits 10 n ≠ '+' :: rest := by
    intro rest signed
    have plus := all '+' (by simp [signed])
    cases plus
  have digits : readDigits (Nat.toDigits 10 n) = .ok n := by
    rw [readDigits]
    · exact value
    · exact Nat.toDigits_ne_nil
    · exact unsigned []
    · exact unsigned
  rw [read, trim_of_digits all, digits]

end Component

/-- A word written in digits is read back as the class of that number. -/
theorem ClassId.read_toString (w : UInt32) : ClassId.read (toString w.toNat) = .ok ⟨w⟩ := by
  rw [read, Nat.toString_eq_repr, Nat.toList_repr, Component.read_toDigits w.toNat_lt,
    show w.toNat.toUInt32 = w from UInt32.ofNat_toNat]
  rfl

theorem toString_toNat_inj {w w' : UInt32} : toString w.toNat = toString w'.toNat ↔ w = w' := by
  constructor
  · intro same
    have read := ClassId.read_toString w
    rw [same, ClassId.read_toString] at read
    exact (ClassId.mk.inj (Except.ok.inj read)).symm
  · rintro rfl
    rfl

end Extraction
