import Extraction.Proofs.Decision.Grammar

/-! Decisions written as text and read again. A written line holds its variable in plain digits and the value
0 or 1, so reading it gives the decision that was written, in whatever file it stands. -/
namespace Extraction.Decision

/-- The variable that a decision sets. -/
def target : Decision → Variable
  | node id _ => .node id
  | eclass c _ => .eclass c

/-- The value that a decision sets its variable to. -/
def used : Decision → Bool
  | node _ used => used
  | eclass _ used => used

theorem decide_target (d : Decision) : d.target.decide d.used = d := by cases d <;> rfl

namespace Variable

def text : Variable → List Char
  | node id =>
    'N' :: '_' :: ((toString id.owner.value.toNat).toList ++ '_' :: (toString id.index.toNat).toList)
  | eclass c => 'A' :: '_' :: (toString c.value.toNat).toList

theorem head?_text (v : Variable) : v.text.head? = some 'N' ∨ v.text.head? = some 'A' := by
  cases v with
  | node => exact .inl rfl
  | eclass => exact .inr rfl

theorem not_isBlank_of_mem_text {v : Variable} {c : Char} (mem : c ∈ v.text) : Text.isBlank c = false := by
  have digits {w : UInt32} (mem : c ∈ (toString w.toNat).toList) : Text.isBlank c = false := by
    rw [Nat.toString_eq_repr, Nat.toList_repr] at mem
    exact Bool.eq_false_iff.2 (Component.not_isBlank_of_isDigit (isDigit_of_mem_toDigits mem))
  cases v with
  | node id =>
    simp only [text, List.mem_cons, List.mem_append] at mem
    rcases mem with rfl | rfl | mem | rfl | mem
    · rfl
    · rfl
    · exact digits mem
    · rfl
    · exact digits mem
  | eclass e =>
    simp only [text, List.mem_cons] at mem
    rcases mem with rfl | rfl | mem
    · rfl
    · rfl
    · exact digits mem

end Variable

theorem line_eq (d : Decision) : d.line = d.target.text ++ ' ' :: usedText d.used := by
  cases d <;> simp [line, target, used, Variable.text, ClassId.text]

theorem names_text : ∀ v : Variable, Names v.text v
  | .node _ => .node (spells_toString _) (spells_toString _)
  | .eclass _ => .eclass (spells_toString _)

/-- The value of a written line is a numeral that rounds to what was written. -/
theorem exists_scan_usedText (used : Bool) : ∃ numeral, Numeral.scan (usedText used) = some (numeral, []) ∧
    InRange numeral.value ∧ decide (0.5 ≤ numeral.value) = used := by
  cases used with
  | false => exact ⟨_, rfl, by decide +kernel⟩
  | true => exact ⟨_, rfl, by decide +kernel⟩

/-- A written line decides what was written. -/
theorem sets_line (d : Decision) : Sets d.line d := by
  obtain ⟨numeral, scanned, inside, value⟩ := exists_scan_usedText d.used
  have values : Values ([' '] ++ usedText d.used) (some numeral.value) :=
    .valued (List.cons_ne_nil _ _) (List.forall_mem_singleton.2 rfl) scanned
  rw [line_eq]
  refine ⟨d.target, _, .mk (names_text _) values, ?_, ?_⟩
  · rintro _ ⟨⟩
    exact inside
  · rw [Option.any_some, value, decide_target]

theorem head?_line (d : Decision) : d.line.head? = some 'N' ∨ d.line.head? = some 'A' := by
  rcases d.target.head?_text with node | eclass
  · exact .inl (by rw [line_eq, List.head?_append, node, Option.some_or])
  · exact .inr (by rw [line_eq, List.head?_append, eclass, Option.some_or])

theorem isSilent_line (d : Decision) : isSilent d.line = false := by
  have some : d.line.isEmpty = false := by simp [line_eq]
  rcases d.head?_line with node | eclass
  · simp [isSilent, some, node]
  · simp [isSilent, some, eclass]

theorem trim_line (d : Decision) : Text.trim d.line = d.line := by
  apply Text.trim_eq_self
  · intro c head
    rcases d.head?_line with node | eclass
    · obtain rfl := Option.some.inj (head.symm.trans node)
      rfl
    · obtain rfl := Option.some.inj (head.symm.trans eclass)
      rfl
  · intro c last
    rw [line_eq, List.getLast?_append] at last
    cases value : d.used <;> rw [value] at last <;> obtain rfl := Option.some.inj last <;> rfl

theorem telling_map_line (decisions : List Decision) : telling (decisions.map line) = decisions.map line := by
  rw [telling, List.map_map, show Text.trim ∘ line = line from funext trim_line, List.filter_eq_self]
  intro text mem
  obtain ⟨d, _, rfl⟩ := List.mem_map.1 mem
  rw [isSilent_line]
  rfl

theorem readLines_line (n : Nat) (decisions : List Decision) :
    readLines n (decisions.map line) = .ok decisions := by
  rw [readLines_eq_ok, telling_map_line, List.forall₂_map_left_iff, List.forall₂_same]
  exact fun d _ => sets_line d

theorem no_lineEnd_of_mem_line {d : Decision} {c : Char} (mem : c ∈ d.line) : c ≠ '\n' ∧ c ≠ '\r' := by
  simp only [line_eq, List.mem_append, List.mem_cons] at mem
  rcases mem with name | rfl | value
  · exact Text.ne_lineEnd (Variable.not_isBlank_of_mem_text name)
  · simp
  · rw [usedText] at value
    split at value <;> simp_all

theorem lines_render (decisions : List Decision) :
    Text.lines (render decisions).toList = decisions.map line := by
  rw [render, String.toList_ofList]
  exact Text.lines_flatMap fun _ _ _ => no_lineEnd_of_mem_line

theorem readAll_render (decisions : List Decision) : readAll (render decisions) = .ok decisions := by
  rw [readAll, lines_render, readLines_line]

/-- Every list of decisions is read back from the text that is written for it, whatever it decides and however
often. So a text that can be read means the same once it is read and written again. -/
theorem render_restores : (∀ decisions, readAll (render decisions) = .ok decisions) ∧
    ∀ text, (do readAll (render (← readAll text))) = readAll text := by
  refine ⟨readAll_render, fun text => ?_⟩
  cases read : readAll text with
  | error e => rfl
  | ok decisions => exact readAll_render decisions

end Extraction.Decision
