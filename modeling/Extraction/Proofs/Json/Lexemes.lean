import Extraction.Json.Printer
import Extraction.Json.Reader
import Mathlib.Data.List.TakeDrop
import Mathlib.Data.List.TakeWhile

/-! The lexical side of JSON: what is written for a string, a number or a mark is cut out of the text
again as one token. A number or a word goes on as long as its characters do, so it comes back only where
something else follows. -/
namespace Extraction.Json

section Strings

theorem hexValue?_of_lt : ∀ n < 32,
    Text.hexValue? ['0', '0', (n / 16).digitChar, (n % 16).digitChar] = some n := by decide

/-- A unit that is no surrogate is a character by itself. -/
theorem joinParts_unit {n : Nat} (below : n < 0xd800) (parts : List StringPart) :
    joinParts (.unit n :: parts) = (joinParts parts).map (Char.ofNat n :: ·) := by
  have low : ¬ 0xd800 ≤ n := by omega
  cases parts with
  | nil => simp [joinParts, low]
  | cons part parts => cases part <;> simp [joinParts, low]

/-- A written character is read as one part of a string, and that part is the character. -/
theorem scanString_escapeChar (c : Char) (rest : List (Option Char)) :
    ∃ part, scanString ((escapeChar c).map some ++ rest) =
        (scanString rest).map (fun s => (part :: s.1, s.2)) ∧
      ∀ parts, joinParts (part :: parts) = (joinParts parts).map (c :: ·) := by
  unfold escapeChar
  split
  · exact ⟨.char _, rfl, fun parts => rfl⟩
  · exact ⟨.char _, rfl, fun parts => rfl⟩
  · exact ⟨.char _, rfl, fun parts => rfl⟩
  · exact ⟨.char _, rfl, fun parts => rfl⟩
  · exact ⟨.char _, rfl, fun parts => rfl⟩
  · exact ⟨.char _, rfl, fun parts => rfl⟩
  · exact ⟨.char _, rfl, fun parts => rfl⟩
  · rename_i quote backslash _ _ _ _ _
    split
    · rename_i control
      have below : c.toNat < 32 := control
      refine ⟨.unit c.toNat, ?_, fun parts => ?_⟩
      · have unit : ([some '0', some '0', some (c.toNat / 16).digitChar,
            some (c.toNat % 16).digitChar].mapM id).bind Text.hexValue? = some c.toNat :=
          hexValue?_of_lt c.toNat below
        simp only [List.map_cons, List.map_nil, List.cons_append, List.nil_append, scanString, unit]
      · rw [joinParts_unit (by omega), Char.ofNat_toNat]
    · rename_i plain
      refine ⟨.char c, ?_, fun parts => rfl⟩
      rw [List.map_singleton, List.singleton_append, scanString]
      · simp [show c ≠ '\\' from backslash, plain]
      all_goals grind

/-- A written string is read up to its closing quote. -/
theorem scanString_escaped (text : List Char) (rest : List (Option Char)) :
    ∃ parts, scanString ((text.flatMap escapeChar).map some ++ some '"' :: rest) =
        some (parts, rest) ∧ joinParts parts = some text := by
  induction text with
  | nil => exact ⟨[], by simp [scanString], rfl⟩
  | cons c text ih =>
    obtain ⟨parts, read, joined⟩ := ih
    obtain ⟨part, first, join⟩ :=
      scanString_escapeChar c ((text.flatMap escapeChar).map some ++ some '"' :: rest)
    refine ⟨part :: parts, ?_, ?_⟩
    · rw [List.flatMap_cons, List.map_append, List.append_assoc, first, read]
      rfl
    · rw [join, joined]
      rfl

end Strings

section Numbers

theorem isNumberChar_of_isDigit {c : Char} (digit : c.isDigit = true) : isNumberChar c = true := by
  simp [isNumberChar, digit]

theorem forall_of_scanSign {text : List Char}
    (digits : ∀ c ∈ (Numeral.scanSign text).2, c.isDigit = true) :
    ∀ c ∈ text, isNumberChar c = true := by
  unfold Numeral.scanSign at digits
  split at digits
  · exact List.forall_mem_cons.2 ⟨rfl, fun c mem => isNumberChar_of_isDigit (digits c mem)⟩
  · exact List.forall_mem_cons.2 ⟨rfl, fun c mem => isNumberChar_of_isDigit (digits c mem)⟩
  · exact fun c mem => isNumberChar_of_isDigit (digits c mem)

theorem forall_of_readPower? {text : List Char} {power : Option (Bool × List Char)}
    (read : readPower? text = some power) : ∀ c ∈ text, isNumberChar c = true := by
  unfold readPower? at read
  split at read
  · exact fun c mem => by cases mem
  · rename_i mark rest
    dsimp only at read
    split at read
    · rename_i shape
      simp only [Bool.and_eq_true, Bool.or_eq_true, decide_eq_true_eq, List.all_eq_true] at shape
      obtain ⟨⟨letter, _⟩, digits⟩ := shape
      refine List.forall_mem_cons.2 ⟨?_, forall_of_scanSign digits⟩
      obtain rfl | rfl := letter <;> rfl
    · cases read

theorem forall_of_span {text others : List Char} (split : (text.span Char.isDigit).2 = others)
    (rest : ∀ c ∈ others, isNumberChar c = true) : ∀ c ∈ text, isNumberChar c = true := by
  subst split
  rw [List.span_eq_takeWhile_dropWhile] at rest
  intro c mem
  rw [← List.takeWhile_append_dropWhile (p := Char.isDigit) (l := text), List.mem_append] at mem
  obtain digit | other := mem
  · exact isNumberChar_of_isDigit (List.mem_takeWhile_imp digit)
  · exact rest c other

theorem forall_of_scanPart? {text part rest : List Char} (read : scanPart? text = some (part, rest))
    (others : ∀ c ∈ rest, isNumberChar c = true) : ∀ c ∈ text, isNumberChar c = true := by
  unfold scanPart? at read
  split at read
  · dsimp only at read
    split at read
    · cases read
    · refine List.forall_mem_cons.2 ⟨rfl, forall_of_span (Prod.mk.inj (Option.some.inj read)).2 others⟩
  · cases read
    exact others

/-- A number is made of characters of numbers, and of one at least. -/
theorem numberChars_of_numberParts? {lexeme : List Char} (number : (numberParts? lexeme).isSome) :
    lexeme ≠ [] ∧ ∀ c ∈ lexeme, isNumberChar c = true := by
  obtain ⟨parts, read⟩ := Option.isSome_iff_exists.1 number
  unfold numberParts? at read
  dsimp only at read
  split at read <;> dsimp only at read <;> split at read
  · cases read
  · obtain ⟨⟨part, others⟩, readPart, read⟩ := Option.bind_eq_some_iff.1 read
    obtain ⟨power, readPower, _⟩ := Option.bind_eq_some_iff.1 read
    have all := forall_of_span rfl (forall_of_scanPart? readPart (forall_of_readPower? readPower))
    exact ⟨List.cons_ne_nil _ _, List.forall_mem_cons.2 ⟨rfl, all⟩⟩
  · cases read
  · rename_i whole
    obtain ⟨⟨part, others⟩, readPart, read⟩ := Option.bind_eq_some_iff.1 read
    obtain ⟨power, readPower, _⟩ := Option.bind_eq_some_iff.1 read
    refine ⟨?_, forall_of_span rfl (forall_of_scanPart? readPart (forall_of_readPower? readPower))⟩
    rintro rfl
    exact whole rfl

theorem scanRun_append {p : Char → Bool} {run : List Char} {rest : List (Option Char)}
    (all : ∀ c ∈ run, p c = true) (ends : ∀ c, rest.head? = some (some c) → p c = false) :
    scanRun p (run.map some ++ rest) = (run, rest) := by
  induction run with
  | nil =>
    match rest with
    | [] => rfl
    | none :: _ => rfl
    | some c :: rest => simp [scanRun, ends c rfl]
  | cons c run ih =>
    rw [List.map_cons, List.cons_append, scanRun, if_pos (all c List.mem_cons_self),
      ih fun d mem => all d (List.mem_cons_of_mem c mem)]

end Numbers

end Extraction.Json
