import Extraction.Proofs.Decimal.Digits
import Extraction.Proofs.Json.Lexemes

/-! Numerals in front of other text. A text that is a numeral as a whole is cut out of a longer text again where
no digit, point or exponent follows, and it has no blanks in it. -/
namespace Extraction.Numeral

/-- No numeral goes on with this text. -/
def Ends (rest : List Char) : Prop :=
  ∀ c, rest.head? = some c → c.isDigit = false ∧ c ≠ '.' ∧ c ≠ 'e' ∧ c ≠ 'E'

variable {text rest : List Char} {d : Decimal}

theorem scanSign_append (some : text ≠ []) :
    scanSign (text ++ rest) = ((scanSign text).1, (scanSign text).2 ++ rest) := by
  obtain ⟨c, text, rfl⟩ := List.exists_cons_of_ne_nil some
  by_cases minus : c = '-'
  · subst minus
    rfl
  by_cases plus : c = '+'
  · subst plus
    rfl
  · simp [scanSign, minus, plus]

theorem scanExponent_append {digits : Nat} {exponent : Int} (ends : Ends rest)
    (read : scanExponent digits exponent text = some (d, [])) :
    scanExponent digits exponent (text ++ rest) = some (d, rest) := by
  have digit : ∀ c, rest.head? = some c → c.isDigit = false := fun c head => (ends c head).1
  cases text with
  | nil =>
    cases rest with
    | nil => exact read
    | cons c rest =>
      obtain ⟨_, _, small, capital⟩ := ends c rfl
      simp_all [scanExponent]
  | cons c text =>
    rw [scanExponent] at read
    rw [List.cons_append, scanExponent]
    split at read
    · rename_i letter
      rw [if_pos letter]
      have some : text ≠ [] := by
        rintro rfl
        simp [scanSign] at read
      rw [scanSign_append some]
      dsimp only at read ⊢
      rw [span_append digit]
      dsimp only
      split at read
      · cases read
      · rename_i power
        rw [if_neg power]
        obtain ⟨value, rest'⟩ := Prod.mk.inj (Option.some.inj read)
        rw [value, rest', List.nil_append]
    · cases read

theorem scanMagnitude_append (ends : Ends rest) (read : scanMagnitude text = some (d, [])) :
    scanMagnitude (text ++ rest) = some (d, rest) := by
  have digit : ∀ c, rest.head? = some c → c.isDigit = false := fun c head => (ends c head).1
  have point : ∀ others, rest ≠ '.' :: others := by
    rintro others rfl
    exact (ends '.' rfl).2.1 rfl
  unfold scanMagnitude at read ⊢
  rw [span_append digit]
  generalize text.span Char.isDigit = parts at read ⊢
  obtain ⟨whole, others⟩ := parts
  dsimp only at read ⊢
  split at read
  · simp only [List.cons_append, span_append digit]
    split at read
    · cases read
    · rename_i digits
      rw [if_neg digits]
      exact scanExponent_append ends read
  · rename_i noPoint
    have still : ∀ tail, others ++ rest ≠ '.' :: tail := by
      cases others with
      | nil => exact point
      | cons c others =>
        rintro tail same
        obtain ⟨rfl, _⟩ := List.cons.inj same
        exact noPoint others rfl
    split at read
    · cases read
    · rename_i digits
      simp only [digits, Bool.false_eq_true, if_false]
      exact scanExponent_append ends read

theorem forall_of_scanExponent {digits : Nat} {exponent : Int}
    (read : scanExponent digits exponent text = some (d, [])) :
    ∀ c ∈ text, Json.isNumberChar c = true := by
  cases text with
  | nil => simp
  | cons c text =>
    rw [scanExponent] at read
    split at read
    · rename_i letter
      dsimp only at read
      split at read
      · cases read
      · obtain ⟨_, all⟩ := Prod.mk.inj (Option.some.inj read)
        rw [List.span_eq_takeWhile_dropWhile, List.dropWhile_eq_nil_iff] at all
        refine List.forall_mem_cons.2 ⟨?_, Json.forall_of_scanSign all⟩
        rcases letter with rfl | rfl <;> rfl
    · cases read

/-- The digits of a numeral with its point and its exponent are characters of numbers, at least one. -/
theorem numberChars_of_scanMagnitude (read : scanMagnitude text = some (d, [])) :
    text ≠ [] ∧ ∀ c ∈ text, Json.isNumberChar c = true := by
  constructor
  · rintro rfl
    simp [scanMagnitude] at read
  unfold scanMagnitude at read
  refine Json.forall_of_span rfl ?_
  generalize text.span Char.isDigit = parts at read ⊢
  obtain ⟨whole, others⟩ := parts
  dsimp only at read ⊢
  split at read
  · split at read
    · cases read
    · exact List.forall_mem_cons.2 ⟨rfl, Json.forall_of_span rfl (forall_of_scanExponent read)⟩
  · split at read
    · cases read
    · exact forall_of_scanExponent read

theorem scan_eq_finite {negative : Bool} : scan text = some (finite negative d, rest) ↔
    (scanSign text).1 = negative ∧ scanMagnitude (scanSign text).2 = some (d, rest) := by
  rw [scan]
  cases magnitude : scanMagnitude (scanSign text).2 with
  | some parts => simp [magnitude, Prod.ext_iff, and_assoc]
  | none =>
    simp only [magnitude]
    cases afterName? "nan".toList text <;> simp

variable {negative : Bool}

theorem scan_append (ends : Ends rest) (read : scan text = some (finite negative d, [])) :
    scan (text ++ rest) = some (finite negative d, rest) := by
  obtain ⟨sign, magnitude⟩ := scan_eq_finite.1 read
  have some : text ≠ [] := by
    rintro rfl
    simp [scanSign, scanMagnitude] at magnitude
  rw [scan_eq_finite, scanSign_append some]
  exact ⟨sign, scanMagnitude_append ends magnitude⟩

/-- A numeral of digits is written in characters of numbers. -/
theorem numberChars_of_scan (read : scan text = some (finite negative d, [])) :
    text ≠ [] ∧ ∀ c ∈ text, Json.isNumberChar c = true := by
  obtain ⟨some, all⟩ := numberChars_of_scanMagnitude (scan_eq_finite.1 read).2
  constructor
  · rintro rfl
    exact some rfl
  · unfold scanSign at all
    split at all
    · exact List.forall_mem_cons.2 ⟨rfl, all⟩
    · exact List.forall_mem_cons.2 ⟨rfl, all⟩
    · exact all

theorem not_isBlank_of_isNumberChar {c : Char} (number : Json.isNumberChar c = true) :
    Text.isBlank c = false := by
  simp only [Json.isNumberChar, Bool.or_eq_true, decide_eq_true_eq] at number
  rcases number with ((((digit | rfl) | rfl) | rfl) | rfl) | rfl
  · exact Bool.eq_false_iff.2 (Component.not_isBlank_of_isDigit digit)
  all_goals rfl

/-- Only a numeral of digits stands for a finite double. -/
theorem exists_finite_of_value {numeral : Numeral} (finite : numeral.value.isFinite = true) :
    ∃ negative d, numeral = .finite negative d := by
  have unbounded : ∀ negative, (infinite negative).value.isFinite = false := by decide +kernel
  have undefined : nan.value.isFinite = false := by decide +kernel
  cases numeral with
  | finite negative d => exact ⟨negative, d, rfl⟩
  | infinite negative => simp [unbounded] at finite
  | nan => simp [undefined] at finite

end Extraction.Numeral
