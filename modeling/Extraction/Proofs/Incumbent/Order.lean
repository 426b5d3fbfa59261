import Extraction.Incumbent
import Extraction.Proofs.Collections
import Extraction.Proofs.Double.Order

/-! The order of the incumbents in a log. A log that is read holds what its lines say, and each incumbent succeeds
the one before it. Among numbers that makes it a run of improvements; what is no number succeeds anything and
is succeeded by anything, so a log can start anew behind it. -/
namespace Extraction.Incumbent

/-- `i` comes later than `last` and is better. -/
def Improves (i last : Incumbent) : Prop := last.elapsed < i.elapsed ∧ i.objective < last.objective

/-- The time and the objective are numbers, infinite ones among them. -/
def IsNumber (i : Incumbent) : Prop := i.elapsed.isNaN = false ∧ i.objective.isNaN = false

variable {i last : Incumbent} {log : List Incumbent}

theorem Improves.numbers (h : i.Improves last) : i.IsNumber ∧ last.IsNumber := by
  obtain ⟨earlier, later⟩ := Double.not_isNaN_of_lt h.1
  obtain ⟨lower, higher⟩ := Double.not_isNaN_of_lt h.2
  exact ⟨⟨later, lower⟩, earlier, higher⟩

theorem Improves.trans {first : Incumbent} (h : i.Improves last) (h' : last.Improves first) :
    i.Improves first :=
  ⟨OrderedCost.trans h'.1 h.1, OrderedCost.trans h.2 h'.2⟩

theorem Improves.succeeds (h : i.Improves last) : i.succeeds last = true := by
  simp [Incumbent.succeeds, Double.not_le_of_lt h.1, Double.not_le_of_lt h.2]

/-- Among numbers, to succeed is to improve. -/
theorem improves_of_succeeds (number : i.IsNumber) (number' : last.IsNumber)
    (succeeds : i.succeeds last = true) : i.Improves last := by
  simp only [Incumbent.succeeds, Bool.and_eq_true, Bool.not_eq_true', decide_eq_false_iff_not] at succeeds
  exact ⟨Double.lt_of_not_le number'.1 number.1 succeeds.1,
    Double.lt_of_not_le number.2 number'.2 succeeds.2⟩

/-- Each incumbent succeeds the one before it. -/
def Succession (log : List Incumbent) : Prop := log.IsChain fun last i => i.succeeds last = true

theorem succession_cons {last : Option Incumbent} : Succession (last.toList ++ i :: log) ↔
    last.all i.succeeds = true ∧ Succession (i :: log) := by
  cases last with
  | none => simp
  | some last => exact List.isChain_cons_cons

/-- The lines that are not blank, without blanks around them. -/
def filled (raws : List (List Char)) : List (List Char) :=
  (raws.map Text.trim).filter fun text => !text.isEmpty

theorem filled_of_blank {raw : List Char} {raws : List (List Char)} (blank : (Text.trim raw).isEmpty = true) :
    filled (raw :: raws) = filled raws := by
  simp [filled, List.isEmpty_iff.1 blank]

theorem filled_cons {raw : List Char} {raws : List (List Char)} (text : (Text.trim raw).isEmpty = false) :
    filled (raw :: raws) = Text.trim raw :: filled raws := by
  simp [filled, text]

/-- A log that is read holds the incumbents of its lines, which have to succeed one another. -/
theorem readLines_eq_ok_iff {n : Nat} {last : Option Incumbent} {raws : List (List Char)} :
    readLines n last raws = .ok log ↔
      List.Forall₂ (fun text i => readLine? text = some i) (filled raws) log ∧
        Succession (last.toList ++ log) := by
  induction raws generalizing n last log with
  | nil =>
    have nothing : filled [] = [] := rfl
    rw [readLines, nothing, List.forall₂_nil_left_iff, Except.ok.injEq, eq_comm]
    refine (and_iff_left_of_imp ?_).symm
    rintro rfl
    cases last <;> simp [Succession]
  | cons raw raws ih =>
    rw [readLines]
    cases blank : (Text.trim raw).isEmpty with
    | true =>
      rw [filled_of_blank blank]
      exact ih
    | false =>
      rw [filled_cons blank, List.forall₂_cons_left_iff]
      cases read : readLine? (Text.trim raw) with
      | none => simp
      | some i =>
        simp only [Option.some.injEq, Bool.false_eq_true, if_false]
        by_cases succeeds : last.all i.succeeds = true
        · rw [if_pos succeeds]
          constructor
          · intro ok
            obtain ⟨others, rest, rfl⟩ := exists_of_map_eq_ok ok
            obtain ⟨texts, chain⟩ := ih.1 rest
            exact ⟨⟨i, others, rfl, texts, rfl⟩, succession_cons.2 ⟨succeeds, chain⟩⟩
          · rintro ⟨⟨_, others, rfl, texts, rfl⟩, chain⟩
            have rest : readLines (n + 1) (some i) raws = .ok others :=
              ih.2 ⟨texts, (succession_cons.1 chain).2⟩
            rw [rest]
            rfl
        · rw [if_neg succeeds]
          constructor
          · intro ok
            cases ok
          · rintro ⟨⟨_, others, rfl, _, rfl⟩, chain⟩
            exact absurd (succession_cons.1 chain).1 succeeds

theorem readAll_eq_ok_iff {text : String} : readAll text = .ok log ↔
    List.Forall₂ (fun text i => readLine? text = some i) (filled (Text.lines text.toList)) log ∧
      Succession log := by
  rw [readAll, readLines_eq_ok_iff]
  rfl

/-- Numbers that succeed one another improve on each other, the later on every earlier. -/
theorem Succession.improves (chain : Succession log) (numbers : ∀ i ∈ log, i.IsNumber) :
    log.Pairwise fun last i => i.Improves last := by
  induction log with
  | nil => exact .nil
  | cons first log ih =>
    obtain ⟨number, others⟩ := List.forall_mem_cons.1 numbers
    cases log with
    | nil => exact List.pairwise_singleton _ _
    | cons next log =>
      obtain ⟨succeeds, chain⟩ := List.isChain_cons_cons.1 chain
      have improves := improves_of_succeeds (others next List.mem_cons_self) number succeeds
      have rest := ih chain others
      refine List.pairwise_cons.2 ⟨List.forall_mem_cons.2 ⟨improves, fun i mem => ?_⟩, rest⟩
      exact ((List.pairwise_cons.1 rest).1 i mem).trans improves

/-- Two or more improvements in a row are all made of numbers. -/
theorem isNumber_of_pairwise (ordered : log.Pairwise fun last i => i.Improves last)
    (several : 1 < log.length) : ∀ i ∈ log, i.IsNumber := by
  rcases log with _ | ⟨first, _ | ⟨next, log⟩⟩
  · simp at several
  · simp at several
  · obtain ⟨later, _⟩ := List.pairwise_cons.1 ordered
    exact List.forall_mem_cons.2
      ⟨(later next List.mem_cons_self).numbers.2, fun i mem => (later i mem).numbers.1⟩

theorem pairwise_of_length_le_one (few : log.length ≤ 1) :
    log.Pairwise fun last i => i.Improves last := by
  rcases log with _ | ⟨first, _ | ⟨next, log⟩⟩
  · exact .nil
  · exact List.pairwise_singleton _ _
  · simp at few

/-- Every stretch of an accepted log in which all is a number is a run of strict improvements, of each incumbent
on every earlier one. The whole log is one exactly if it has no two incumbents or all in it is a number. -/
theorem improves_of_readAll {text : String} (ok : readAll text = .ok log) :
    (∀ stretch, stretch <:+: log → (∀ i ∈ stretch, i.IsNumber) →
      stretch.Pairwise fun last i => last.elapsed < i.elapsed ∧ i.objective < last.objective) ∧
    ((log.Pairwise fun last i => last.elapsed < i.elapsed ∧ i.objective < last.objective) ↔
      log.length ≤ 1 ∨ ∀ i ∈ log, i.IsNumber) := by
  obtain ⟨_, chain⟩ := readAll_eq_ok_iff.1 ok
  refine ⟨fun stretch part => ?_, ?_, ?_⟩
  · have links : Succession stretch := List.IsChain.infix chain part
    exact links.improves
  · intro ordered
    rcases Nat.lt_or_ge 1 log.length with several | few
    · exact .inr (isNumber_of_pairwise ordered several)
    · exact .inl few
  · rintro (few | numbers)
    · exact pairwise_of_length_le_one few
    · exact chain.improves numbers

section Texts
set_option maxRecDepth 100000

deriving instance DecidableEq for Incumbent

/-- An infinite objective is a number that can be improved on. -/
theorem unboundedLog_improves : ∃ log, readAll "0.5: inf\n1.25: 98.5\n\n3: -97\n" = .ok log ∧ log.length = 3 ∧
    (∀ i ∈ log, i.IsNumber) ∧
    log.Pairwise fun last i => last.elapsed < i.elapsed ∧ i.objective < last.objective := by
  have read : (readAll "0.5: inf\n1.25: 98.5\n\n3: -97\n").toOption =
      some [⟨0.5, 1.0 / 0.0⟩, ⟨1.25, 98.5⟩, ⟨3, -97⟩] := by decide +kernel
  have ok := eq_ok_of_toOption read
  have numbers : ∀ i ∈ ([⟨0.5, 1.0 / 0.0⟩, ⟨1.25, 98.5⟩, ⟨3, -97⟩] : List Incumbent), i.IsNumber := by
    unfold IsNumber
    decide +kernel
  exact ⟨_, ok, rfl, numbers, (improves_of_readAll ok).2.2 (.inr numbers)⟩

/-- Behind an incumbent that is no number the log goes back in time and gets worse. -/
theorem brokenLog_not_improves : ∃ log, readAll "1: 1\nnan: nan\n0: 5" = .ok log ∧
    log[0]? = some ⟨1, 1⟩ ∧ log[2]? = some ⟨0, 5⟩ ∧
    ¬ log.Pairwise fun last i => last.elapsed < i.elapsed ∧ i.objective < last.objective := by
  have read : (readAll "1: 1\nnan: nan\n0: 5").toOption =
      some [⟨1, 1⟩, ⟨0.0 / 0.0, 0.0 / 0.0⟩, ⟨0, 5⟩] := by decide +kernel
  refine ⟨_, eq_ok_of_toOption read, rfl, rfl, ?_⟩
  decide +kernel

end Texts

end Extraction.Incumbent
