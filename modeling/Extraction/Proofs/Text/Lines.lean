import Extraction.Text.Blank

/-! Texts written line by line. Lines without line ends come back as they were put down, and trimming leaves
alone what neither begins nor ends with a blank, whatever blanks stand around it. -/
namespace Extraction.Text

/-- Lines that are each ended by a line feed are read back one by one. -/
theorem lines_flatMap {κ : Type} {line : κ → List Char} {items : List κ}
    (plain : ∀ x ∈ items, ∀ c ∈ line x, c ≠ '\n' ∧ c ≠ '\r') :
    lines (items.flatMap fun x => line x ++ ['\n']) = items.map line := by
  induction items with
  | nil => exact lines_nil
  | cons x items ih =>
    obtain ⟨first, others⟩ := List.forall_mem_cons.1 plain
    rw [List.flatMap_cons, List.append_assoc, List.singleton_append, lines_append_newline _ first,
      ih others, List.map_cons]

theorem ne_lineEnd {c : Char} (visible : isBlank c = false) : c ≠ '\n' ∧ c ≠ '\r' := by
  constructor <;> rintro rfl <;> cases visible

theorem dropWhile_isBlank {text : List Char} (first : ∀ c, text.head? = some c → isBlank c = false) :
    text.dropWhile isBlank = text := by
  cases text with
  | nil => rfl
  | cons c text =>
    rw [List.dropWhile_cons_of_neg]
    rw [first c rfl]
    exact Bool.false_ne_true

theorem trim_eq_self {text : List Char} (first : ∀ c, text.head? = some c → isBlank c = false)
    (last : ∀ c, text.getLast? = some c → isBlank c = false) : trim text = text := by
  rw [trim, dropWhile_isBlank first, trimEnd, dropWhile_isBlank, List.reverse_reverse]
  intro c head
  exact last c (List.head?_reverse ▸ head)

/-- What holds no blank is not changed by trimming. -/
theorem trim_of_forall {text : List Char} (visible : ∀ c ∈ text, isBlank c = false) : trim text = text :=
  trim_eq_self (fun c head => visible c (List.mem_of_mem_head? head))
    fun c last => visible c (List.mem_of_getLast? last)

/-- Blanks around a text that neither begins nor ends with a blank are trimmed away. -/
theorem trim_append {front core back : List Char} (filled : core ≠ [])
    (before : ∀ c ∈ front, isBlank c = true) (after : ∀ c ∈ back, isBlank c = true)
    (first : ∀ c, core.head? = some c → isBlank c = false)
    (last : ∀ c, core.getLast? = some c → isBlank c = false) : trim (front ++ core ++ back) = core := by
  have begins : (core ++ back).head? = core.head? := by
    rw [List.head?_append, List.head?_eq_some_head filled, Option.some_or]
  have ends : ∀ c, core.reverse.head? = some c → isBlank c = false := fun c head =>
    last c (List.head?_reverse ▸ head)
  have behind : ∀ c ∈ back.reverse, isBlank c = true := fun c mem => after c (List.mem_reverse.1 mem)
  rw [trim, List.append_assoc, List.dropWhile_append_of_pos before,
    dropWhile_isBlank fun c head => first c (begins ▸ head), trimEnd, List.reverse_append,
    List.dropWhile_append_of_pos behind, dropWhile_isBlank ends, List.reverse_reverse]

/-- Trimming takes nothing but blanks away. -/
theorem exists_trim (text : List Char) : ∃ front back, text = front ++ trim text ++ back ∧
    (∀ c ∈ front, isBlank c = true) ∧ ∀ c ∈ back, isBlank c = true := by
  refine ⟨text.takeWhile isBlank, ((text.dropWhile isBlank).reverse.takeWhile isBlank).reverse, ?_, ?_, ?_⟩
  · rw [trim, trimEnd, List.append_assoc, ← List.reverse_append, List.takeWhile_append_dropWhile,
      List.reverse_reverse, List.takeWhile_append_dropWhile]
  · exact List.all_eq_true.1 List.all_takeWhile
  · intro c mem
    exact List.all_eq_true.1 List.all_takeWhile c (List.mem_reverse.1 mem)

end Extraction.Text
