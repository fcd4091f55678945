import PatternLint.Proofs.ExitCode
import PatternLint.Proofs.ReportLines
import PatternLint.Proofs.ResultShape
import PatternLint.Proofs.Verdict

/-!
# The reasons of a refusal

The refusal of a source that is to run gives its errors, and each of them takes one line: what an error quotes of the
source is part of one line of it (`Lint.unbroken_of_error`), while scales, which may span lines, are only warned about.
So the lines of the reasons are those of the errors, each with the number of a line of the source
(`Gate.reasons_exact`).
-/
namespace PatternLint

/-! ### Errors -/

namespace Lint

/-- No error quotes a line break. -/
theorem unbroken_of_error {source : Text} {finding : Finding} (member : finding ∈ findings source)
    (error : finding.cause.severity = .error) : '\n' ∉ finding.message := by
  rcases List.mem_append.mp member with onLine | onSource
  · exact breaks_eq_zero_iff.mp (breaks_linePhase source) finding onLine
  · obtain ⟨rule, _, found⟩ := List.mem_flatMap.mp onSource
    refine (not_mem_message_iff finding).mpr fun text quoted => ?_
    cases SourceRule.reports_of_mem found with
    | quotes _ => cases quoted
    | brackets _ _ => cases quoted
    | scales _ => cases error

/-- What is found is placed on a line of the source. -/
theorem line_of_mem_findings {source : Text} {finding : Finding} (member : finding ∈ findings source) :
    1 ≤ finding.line ∧ finding.line ≤ source.lines.length := by
  have some_line : 1 ≤ source.lines.length := List.length_pos_iff.mpr (Text.splitOn_ne_nil '\n' source)
  rcases List.mem_append.mp member with onLine | onSource
  · obtain ⟨text, isOn, _⟩ := isOn_of_mem_linePhase onLine
    exact ⟨isOn.first, isOn.last⟩
  · obtain ⟨rule, _, found⟩ := List.mem_flatMap.mp onSource
    cases rule with
    | quotes =>
      obtain ⟨text, isOn⟩ := Quotes.isOn_of_mem_findings found
      exact ⟨isOn.first, isOn.last⟩
    | brackets =>
      cases SourceRule.reports_of_mem found
      exact ⟨Nat.le_refl 1, some_line⟩
    | scales =>
      cases SourceRule.reports_of_mem found
      exact ⟨Nat.le_refl 1, some_line⟩

theorem exists_of_mem_errors {source : Text} {error : Diagnostic} (member : error ∈ (check source).errors) :
    ∃ finding ∈ findings source, finding.cause.severity = .error ∧ finding.diagnostic = error := by
  obtain ⟨reported, isError⟩ := List.mem_filter.mp member
  obtain ⟨finding, found, rfl⟩ := List.mem_map.mp reported
  exact ⟨finding, found, of_decide_eq_true isError, rfl⟩

end Lint

/-! ### Reasons -/

theorem Diagnostic.count_break_located (diagnostic : Diagnostic) :
    diagnostic.located.count '\n' = diagnostic.message.count '\n' := by
  have word : ("Line ".toList).count '\n' = 0 := by decide
  have colon : (": ".toList).count '\n' = 0 := by decide
  have spelled : diagnostic.located =
      "Line ".toList ++ Text.ofNat diagnostic.line ++ ": ".toList ++ diagnostic.message := rfl
  rw [spelled, List.count_append, List.count_append, List.count_append, word, Text.count_break_ofNat, colon,
    Nat.zero_add]

theorem LintResult.lines_reasons {result : LintResult} (some_error : result.errors ≠ [])
    (unbroken : ∀ error ∈ result.errors, '\n' ∉ error.message) :
    result.reasons.lines = result.errors.map (·.located) := by
  refine Text.lines_unlines_of_unbroken (by simpa using some_error) fun line member => ?_
  obtain ⟨error, listed, rfl⟩ := List.mem_map.mp member
  rw [← List.count_eq_zero, Diagnostic.count_break_located, List.count_eq_zero]
  exact unbroken error listed

namespace Gate

/-- A source that may not run has errors, and the lines of the reasons are those of its errors, in the order of their
    discovery. Each has one line, and each names a line of the source. -/
theorem reasons_exact {source : Text} {refusal : Refusal} (refused : review .run source = .error refusal) :
    1 ≤ (Lint.check source).errors.length ∧
    refusal.details.lines = (Lint.check source).errors.map (fun error =>
      "Line ".toList ++ Text.ofNat error.line ++ ": ".toList ++ error.message) ∧
    ∀ error ∈ (Lint.check source).errors, error.severity = .error ∧ 1 ≤ error.line ∧ error.line ≤ source.lines.length := by
  have bad : ¬ (Lint.check source).ok = true := fun ok => by
    rw [review_of_ok ok] at refused
    cases refused
  rw [review_of_not_ok bad] at refused
  cases refused
  have some_error : (Lint.check source).errors ≠ [] := mt (LintResult.ok_iff_errors_eq_nil _).mpr bad
  have lines : (Refusal.mk .run (Lint.check source)).details.lines = (Lint.check source).errors.map (·.located) := by
    refine LintResult.lines_reasons some_error fun error member => ?_
    obtain ⟨finding, found, isError, rfl⟩ := Lint.exists_of_mem_errors member
    exact Lint.unbroken_of_error found isError
  refine ⟨List.length_pos_iff.mpr some_error, lines, fun error member => ?_⟩
  obtain ⟨finding, found, isError, rfl⟩ := Lint.exists_of_mem_errors member
  exact ⟨isError, Lint.line_of_mem_findings found⟩

/-- One error behind a warning about a scale over two lines. -/
theorem reasons_exact_below_scales :
    review .run ".scale('a').scale('b\nc')\neval(1)".toList =
      .error ⟨.run, Lint.check ".scale('a').scale('b\nc')\neval(1)".toList⟩ ∧
    (Lint.check ".scale('a').scale('b\nc')\neval(1)".toList).diagnostics.length = 2 ∧
    (Refusal.mk .run (Lint.check ".scale('a').scale('b\nc')\neval(1)".toList)).details.lines =
      ["Line 3: Potentially unsafe code detected (eval(). JavaScript imports and browser APIs are not allowed.".toList] := by
  have refused : review .run ".scale('a').scale('b\nc')\neval(1)".toList =
      .error ⟨.run, Lint.check ".scale('a').scale('b\nc')\neval(1)".toList⟩ :=
    review_of_not_ok (by decide +kernel) .run
  exact ⟨refused, by decide +kernel, (reasons_exact refused).2.1.trans (by decide +kernel)⟩

end Gate
end PatternLint
