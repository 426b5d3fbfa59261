import Extraction.Proofs.Decimal.Scanning
import Extraction.Proofs.Incumbent.Order

/-! The log over a run of offers. It takes the finite incumbents that improve on the last one it took, as far as
they can be written; what it has written is then read back as the incumbents that it took. -/
namespace Extraction

section Lines

/-- Written out in plain digits, the double is read as itself. -/
def ReadsBack (x : Float) : Prop :=
  (Numeral.scan (Layout.plain.render x).toList).map (Prod.map Numeral.value id) = some (x, [])

instance (x : Float) : Decidable (ReadsBack x) := inferInstanceAs (Decidable (_ = _))

/-- A finite double that is read back is written as a numeral of digits. -/
theorem ReadsBack.exists_finite {x : Float} (back : ReadsBack x) (finite : x.isFinite = true) :
    ∃ negative d, Numeral.scan (Layout.plain.render x).toList = some (.finite negative d, []) ∧
      (Numeral.finite negative d).value = x := by
  obtain ⟨⟨numeral, rest⟩, scan, same⟩ := Option.map_eq_some_iff.1 back
  obtain ⟨value, rfl⟩ := Prod.mk.inj same
  obtain ⟨negative, d, rfl⟩ := Numeral.exists_finite_of_value (value ▸ finite)
  exact ⟨negative, d, scan, value⟩

theorem ReadsBack.numberChars {x : Float} (back : ReadsBack x) (finite : x.isFinite = true) :
    (Layout.plain.render x).toList ≠ [] ∧
      ∀ c ∈ (Layout.plain.render x).toList, Json.isNumberChar c = true := by
  obtain ⟨_, _, scan, _⟩ := back.exists_finite finite
  exact Numeral.numberChars_of_scan scan

namespace Incumbent

def IsFinite (i : Incumbent) : Prop := i.elapsed.isFinite = true ∧ i.objective.isFinite = true

theorem IsFinite.isNumber {i : Incumbent} (finite : i.IsFinite) : i.IsNumber :=
  ⟨Double.not_isNaN_of_isFinite finite.1, Double.not_isNaN_of_isFinite finite.2⟩

/-- Both numbers can be written and read again. -/
structure Legible (i : Incumbent) : Prop where
  finite : i.IsFinite
  elapsed : ReadsBack i.elapsed
  objective : ReadsBack i.objective

/-- The line of an incumbent, without its end. -/
def text (i : Incumbent) : List Char :=
  (Layout.plain.render i.elapsed).toList ++ ':' :: ' ' :: (Layout.plain.render i.objective).toList

theorem toList_line (i : Incumbent) : i.line.toList = i.text ++ ['\n'] := by
  simp [line, text]

variable {i : Incumbent}

theorem Legible.readLine?_text (legible : i.Legible) : readLine? i.text = some i := by
  obtain ⟨negative, d, elapsed, value⟩ := legible.elapsed.exists_finite legible.finite.1
  obtain ⟨negative', d', objective, value'⟩ := legible.objective.exists_finite legible.finite.2
  have colon : Numeral.Ends (':' :: ' ' :: (Layout.plain.render i.objective).toList) := by
    rintro _ ⟨⟩
    decide
  have gap : (' ' :: (Layout.plain.render i.objective).toList).dropWhile (fun c => c = ' ' || c = '\t') =
      (Layout.plain.render i.objective).toList := by
    obtain ⟨some, all⟩ := legible.objective.numberChars legible.finite.2
    obtain ⟨c, rest, same⟩ := List.exists_cons_of_ne_nil some
    rw [same] at all ⊢
    have number := all c List.mem_cons_self
    have space : c ≠ ' ' := by
      rintro rfl
      cases number
    have tab : c ≠ '\t' := by
      rintro rfl
      cases number
    simp [space, tab]
  rw [readLine?, text, Numeral.scan_append colon elapsed]
  simp only [Option.bind_eq_bind, Option.bind_some, gap, objective, value, value']

theorem Legible.trim_text (legible : i.Legible) : Text.trim i.text = i.text := by
  obtain ⟨some, all⟩ := legible.elapsed.numberChars legible.finite.1
  obtain ⟨some', all'⟩ := legible.objective.numberChars legible.finite.2
  apply Text.trim_eq_self
  · intro c head
    rw [text, List.head?_append_of_ne_nil _ some] at head
    exact Numeral.not_isBlank_of_isNumberChar (all c (List.mem_of_mem_head? head))
  · intro c last
    have ending : i.text = ((Layout.plain.render i.elapsed).toList ++ [':', ' ']) ++
        (Layout.plain.render i.objective).toList := by simp [text]
    rw [ending, List.getLast?_append_of_ne_nil _ some'] at last
    exact Numeral.not_isBlank_of_isNumberChar (all' c (List.mem_of_getLast? last))

theorem Legible.no_lineEnd (legible : i.Legible) : ∀ c ∈ i.text, c ≠ '\n' ∧ c ≠ '\r' := by
  obtain ⟨_, all⟩ := legible.elapsed.numberChars legible.finite.1
  obtain ⟨_, all'⟩ := legible.objective.numberChars legible.finite.2
  intro c mem
  simp only [text, List.mem_append, List.mem_cons] at mem
  rcases mem with elapsed | rfl | rfl | objective
  · exact Text.ne_lineEnd (Numeral.not_isBlank_of_isNumberChar (all c elapsed))
  · decide
  · decide
  · exact Text.ne_lineEnd (Numeral.not_isBlank_of_isNumberChar (all' c objective))

/-- What a log has written of legible incumbents is read back, if they succeed one another. -/
theorem readAll_lines {log : List Incumbent} {written : String} (legible : ∀ i ∈ log, i.Legible)
    (chain : Succession log) (lines : written.toList = log.flatMap fun i => i.line.toList) :
    readAll written = .ok log := by
  have raws : Text.lines written.toList = log.map text := by
    simp only [lines, toList_line]
    exact Text.lines_flatMap fun i mem => (legible i mem).no_lineEnd
  have texts : filled (log.map text) = log.map text := by
    have trimmed : (log.map text).map Text.trim = log.map text := by
      rw [List.map_map]
      exact List.map_congr_left fun i mem => (legible i mem).trim_text
    rw [filled, trimmed, List.filter_eq_self]
    intro text mem
    obtain ⟨i, _, rfl⟩ := List.mem_map.1 mem
    simp [Incumbent.text]
  rw [readAll_eq_ok_iff, raws, texts, List.forall₂_map_left_iff, List.forall₂_same]
  exact ⟨fun i mem => (legible i mem).readLine?_text, chain⟩

end Incumbent

end Lines

namespace IncumbentLog

/-- An incumbent that is offered to a log, at a time at which its line can be written or not. -/
structure Call where
  writable : Bool
  incumbent : Incumbent

/-- The log when the calls have been made. -/
def after (log : IncumbentLog) (calls : List Call) : IncumbentLog :=
  calls.foldl (fun log call => (log.offer call.writable call.incumbent).2) log

/-- The incumbents of the calls that are answered as taken, in order. -/
def taken (log : IncumbentLog) : List Call → List Incumbent
  | [] => []
  | call :: calls =>
    match log.offer call.writable call.incumbent with
    | (.taken, next) => call.incumbent :: next.taken calls
    | (_, next) => next.taken calls

variable {log : IncumbentLog} {entries : List Incumbent}

/-- What an offer comes to: either the incumbent is taken and its line is written, or nothing changes. -/
theorem offer_cases (log : IncumbentLog) (writable : Bool) (i : Incumbent) :
    ((i.IsFinite ∧ writable = true ∧ log.best.all i.succeeds = true) ∧
      log.offer writable i = (.taken, ⟨log.written ++ i.line, some i⟩)) ∨
    (¬ (i.IsFinite ∧ writable = true ∧ log.best.all i.succeeds = true) ∧
      ∃ answer, answer ≠ .taken ∧ log.offer writable i = (answer, log)) := by
  by_cases fits : (i.elapsed.isFinite && i.objective.isFinite && log.best.all i.succeeds) = true
  · have parts := fits
    simp only [Bool.and_eq_true] at parts
    obtain ⟨finite, succeeds⟩ := parts
    cases writable with
    | true => exact .inl ⟨⟨finite, rfl, succeeds⟩, by simp [offer, fits]⟩
    | false => exact .inr ⟨by simp, .failed, by decide, by simp [offer, fits]⟩
  · refine .inr ⟨?_, .refused, by decide, by simp [offer, fits]⟩
    rintro ⟨finite, _, succeeds⟩
    simp [finite.1, finite.2, succeeds] at fits

/-- The log has taken these incumbents, each of them finite and better than the one before it, and has written
their lines. -/
structure Holds (log : IncumbentLog) (entries : List Incumbent) : Prop where
  written : log.written.toList = entries.flatMap fun i => i.line.toList
  best : log.best = entries.getLast?
  finite : ∀ i ∈ entries, i.IsFinite
  chain : Incumbent.Succession entries

theorem holds_empty : Holds ∅ [] := ⟨rfl, rfl, by simp, .nil⟩

/-- To be taken, an incumbent has to improve on the last one that was. -/
theorem Holds.succeeds_iff (holds : log.Holds entries) {i : Incumbent} (finite : i.IsFinite) :
    log.best.all i.succeeds = true ↔ ∀ last ∈ entries.getLast?, i.Improves last := by
  rw [holds.best, Option.all_eq_true]
  refine forall₂_congr fun last mem => ⟨?_, Incumbent.Improves.succeeds⟩
  have finite' := holds.finite last (List.mem_of_getLast? mem)
  exact Incumbent.improves_of_succeeds finite.isNumber finite'.isNumber

theorem Holds.append (holds : log.Holds entries) {i : Incumbent} (finite : i.IsFinite)
    (succeeds : log.best.all i.succeeds = true) :
    Holds ⟨log.written ++ i.line, some i⟩ (entries ++ [i]) where
  written := by simp [holds.written]
  best := by simp
  finite := by
    intro j mem
    rcases List.mem_append.1 mem with mem | mem
    · exact holds.finite j mem
    · obtain rfl := List.mem_singleton.1 mem
      exact finite
  chain := by
    refine List.isChain_append.2 ⟨holds.chain, .singleton i, fun last mem j head => ?_⟩
    obtain rfl := Option.some.inj head
    rw [holds.best, Option.all_eq_true] at succeeds
    exact succeeds last mem

/-- After any calls the log holds what it held and what was taken in their course. -/
theorem Holds.after (holds : log.Holds entries) (calls : List Call) :
    (log.after calls).Holds (entries ++ log.taken calls) := by
  induction calls generalizing log entries with
  | nil => simpa [IncumbentLog.after, taken] using holds
  | cons call calls ih =>
    show ((log.offer call.writable call.incumbent).2.after calls).Holds _
    rw [taken]
    rcases log.offer_cases call.writable call.incumbent with
      ⟨⟨finite, _, succeeds⟩, offered⟩ | ⟨_, answer, refused, offered⟩
    · have step := ih (holds.append finite succeeds)
      rw [List.append_assoc, List.singleton_append] at step
      simpa only [offered] using step
    · have step := ih holds
      rw [offered]
      cases answer with
      | taken => exact absurd rfl refused
      | refused => exact step
      | failed => exact step

theorem taken_sublist (log : IncumbentLog) (calls : List Call) :
    (log.taken calls).Sublist (calls.map Call.incumbent) := by
  induction calls generalizing log with
  | nil => exact .slnil
  | cons call calls ih =>
    rw [taken, List.map_cons]
    split
    · exact (ih _).cons_cons _
    · exact (ih _).cons _

/-- The calls answered as taken are those with a finite incumbent, a line that can be written and an improvement on
the last incumbent taken. That one is the best, and no other call changes anything. If the finite doubles among
the offers read back as they are written, the log reads back as the incumbents that were taken. -/
theorem readAll_after (calls : List Call) :
    let log := (∅ : IncumbentLog).after calls
    let taken := (∅ : IncumbentLog).taken calls
    (∀ writable i, (log.offer writable i).1 = .taken ↔
      i.elapsed.isFinite = true ∧ i.objective.isFinite = true ∧ writable = true ∧
        ∀ last ∈ taken.getLast?, last.elapsed < i.elapsed ∧ i.objective < last.objective) ∧
    (∀ writable i, (log.offer writable i).1 ≠ .taken → (log.offer writable i).2 = log) ∧
    log.best = taken.getLast? ∧
    ((∀ call ∈ calls, ∀ x ∈ [call.incumbent.elapsed, call.incumbent.objective],
        x.isFinite = true → ReadsBack x) →
      Incumbent.readAll log.written = .ok taken) := by
  intro log taken
  have holds : log.Holds taken := holds_empty.after calls
  refine ⟨fun writable i => ?_, fun writable i refused => ?_, holds.best, fun back => ?_⟩
  · rcases log.offer_cases writable i with ⟨⟨finite, write, succeeds⟩, offered⟩ | ⟨unfit, _, refused, offered⟩
    · have improves := (holds.succeeds_iff finite).1 succeeds
      rw [offered]
      exact iff_of_true rfl ⟨finite.1, finite.2, write, improves⟩
    · rw [offered]
      refine iff_of_false refused ?_
      rintro ⟨time, value, write, improves⟩
      exact unfit ⟨⟨time, value⟩, write, (holds.succeeds_iff ⟨time, value⟩).2 improves⟩
  · rcases log.offer_cases writable i with ⟨_, offered⟩ | ⟨_, _, _, offered⟩
    · exact absurd (congrArg Prod.fst offered) refused
    · exact congrArg Prod.snd offered
  · have legible : ∀ i ∈ taken, i.Legible := by
      intro i mem
      have finite := holds.finite i mem
      obtain ⟨call, offered, rfl⟩ := List.mem_map.1 ((taken_sublist ∅ calls).subset mem)
      exact ⟨finite, back call offered _ (by simp) finite.1, back call offered _ (by simp) finite.2⟩
    exact Incumbent.readAll_lines legible holds.chain holds.written

section Calls

/-- Six offers. The second brings nothing new, the third cannot be written, and the fifth is no number. -/
def solverCalls : List Call :=
  [⟨true, 0.5, 120⟩, ⟨true, 0.7, 120⟩, ⟨false, 1.25, 98.5⟩, ⟨true, 1.25, 98.5⟩, ⟨true, 2, 0.0 / 0.0⟩,
    ⟨true, 3, 97⟩]

theorem solverCalls_readAll :
    (∀ call ∈ solverCalls, ∀ x ∈ [call.incumbent.elapsed, call.incumbent.objective],
      x.isFinite = true → ReadsBack x) ∧
    ((∅ : IncumbentLog).after solverCalls).written = "0.5: 120\n1.25: 98.5\n3: 97\n" ∧
    ((∅ : IncumbentLog).after solverCalls).best = some ⟨3, 97⟩ ∧
    (((∅ : IncumbentLog).after solverCalls).offer true ⟨4, 96⟩).1 = .taken ∧
    Incumbent.readAll ((∅ : IncumbentLog).after solverCalls).written =
      .ok [⟨0.5, 120⟩, ⟨1.25, 98.5⟩, ⟨3, 97⟩] := by
  have written : ((∅ : IncumbentLog).after solverCalls).written = "0.5: 120\n1.25: 98.5\n3: 97\n" := by
    decide +kernel
  have taken : (∅ : IncumbentLog).taken solverCalls = [⟨0.5, 120⟩, ⟨1.25, 98.5⟩, ⟨3, 97⟩] := by
    decide +kernel
  have back : ∀ call ∈ solverCalls, ∀ x ∈ [call.incumbent.elapsed, call.incumbent.objective],
      x.isFinite = true → ReadsBack x := by decide +kernel
  obtain ⟨answers, _, best, read⟩ := readAll_after solverCalls
  rw [taken] at answers best read
  refine ⟨back, written, best, (answers true ⟨4, 96⟩).2 ?_, read back⟩
  decide +kernel

end Calls

end IncumbentLog

end Extraction
