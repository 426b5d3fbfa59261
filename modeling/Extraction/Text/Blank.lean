/-! White space and lines. A character is blank if it has the Unicode property White_Space; a text is
trimmed of blanks at both ends, and its lines end at a line feed, with or without a carriage return
before it. -/
namespace Extraction.Text

/-- Has the Unicode property White_Space. -/
def isBlank (c : Char) : Bool :=
  ('\t' ≤ c && c ≤ '\r') || c = ' ' || c = '\u0085' || c = '\u00a0' || c = '\u1680' ||
    ('\u2000' ≤ c && c ≤ '\u200a') || c = '\u2028' || c = '\u2029' || c = '\u202f' ||
    c = '\u205f' || c = '\u3000'

def trimEnd (text : List Char) : List Char := (text.reverse.dropWhile isBlank).reverse

def trim (text : List Char) : List Char := trimEnd (text.dropWhile isBlank)

/-- The lines of a text, without their ends. A last line need not be ended. -/
def lines : List Char → List (List Char)
  | [] => []
  | '\n' :: rest => [] :: lines rest
  | '\r' :: '\n' :: rest => [] :: lines rest
  | c :: rest =>
    match lines rest with
    | [] => [[c]]
    | line :: others => (c :: line) :: others

theorem lines_nil : lines [] = [] := by rw [lines]

theorem lines_cons_newline (rest : List Char) : lines ('\n' :: rest) = [] :: lines rest := by
  rw [lines]

/-- A line without line ends, ended by a line feed, is read back as it stands. -/
theorem lines_append_newline {line : List Char} (rest : List Char)
    (plain : ∀ c ∈ line, c ≠ '\n' ∧ c ≠ '\r') :
    lines (line ++ '\n' :: rest) = line :: lines rest := by
  induction line with
  | nil => exact lines_cons_newline rest
  | cons c line ih =>
    have first := plain c (by simp)
    have later := ih fun d hd => plain d (by simp [hd])
    rw [List.cons_append, lines, later]
    · exact fun h => first.1 h
    · exact fun r h => absurd h first.2

end Extraction.Text
