import PatternLint.Lint
import PatternLint.Proofs.RuleFindings

/-!
# The lines of a report

Each diagnostic of a source is to take one line of its report. The only line breaks that get into a message are
those of the text that it quotes (`count_break_message`). Findings on a line quote a part of it, so only the scales
that the report lists can break a line: every diagnostic has a line of its own just when none of them spans lines
(`lines_summary_exact`).
-/
namespace PatternLint

/-! ### Numbers -/

theorem Text.count_break_ofNat (n : Nat) : (ofNat n).count '\n' = 0 :=
  List.count_eq_zero.mpr fun member => by
    have := isDigit_of_mem_ofNat member
    revert this
    decide

theorem Decimal.count_break_fractionDigits (decimal : Decimal) : decimal.fractionDigits.count '\n' = 0 := by
  rw [fractionDigits]
  split
  · rfl
  · refine List.count_eq_zero.mpr fun member => ?_
    rw [List.mem_reverse] at member
    have member := (List.dropWhile_sublist _).subset member
    rw [List.mem_reverse, List.mem_append, List.mem_replicate] at member
    rcases member with ⟨_, zero⟩ | digit
    · revert zero
      decide
    · exact List.count_eq_zero.mp (Text.count_break_ofNat _) digit

theorem Decimal.count_break_toText (decimal : Decimal) : decimal.toText.count '\n' = 0 := by
  have fraction := decimal.count_break_fractionDigits
  rw [toText]
  cases digits : decimal.fractionDigits with
  | nil => exact Text.count_break_ofNat _
  | cons digit digits' =>
    rw [digits] at fraction
    simpa [List.count_append, Text.count_break_ofNat] using fraction

theorem Binary64.count_break_toText (number : Binary64) : number.toText.count '\n' = 0 := by
  cases number with
  | finite units => exact (shortest units).count_break_toText
  | infinite => decide

/-! ### Messages -/

/-- The texts that the wording of a cause takes over as they are. -/
def Cause.quoted : Cause → List Text
  | waveformAsSample argument _ => [argument]
  | differentScales scales => scales
  | unreadable error => [error.message]
  | _ => []

theorem count_intercalate {c : Char} {separator : Text} (free : c ∉ separator) (texts : List Text) :
    (List.intercalate separator texts).count c = texts.flatten.count c := by
  induction texts with
  | nil => rfl
  | cons text texts ih =>
    cases texts with
    | nil => simp [List.intercalate]
    | cons next texts =>
      have joined : List.intercalate separator (text :: next :: texts) =
          text ++ separator ++ List.intercalate separator (next :: texts) := by
        simp [List.intercalate]
      rw [joined, List.count_append, List.count_append, List.count_eq_zero.mpr free, ih, Nat.add_zero,
        ← List.count_append]
      rfl

theorem count_break_literal (text : String) (unbroken : text.toList.all (· ≠ '\n') = true) :
    text.toList.count '\n' = 0 :=
  List.count_eq_zero.mpr fun member => by simpa using List.all_eq_true.mp unbroken _ member

/-- A message has the line breaks of the texts that it quotes. -/
theorem count_break_message (finding : Finding) :
    finding.message.count '\n' = finding.cause.quoted.flatten.count '\n' := by
  obtain ⟨line, column, cause⟩ := finding
  -- the words of each message are counted one by one, and nothing but what it quotes has a line break
  cases cause with
  | waveformAsSample argument wave =>
    have name : wave.name.count '\n' = 0 := by cases wave <;> decide
    simp (disch := decide +kernel) only [Finding.message, Cause.quoted, name, List.count_append, count_break_literal]
    simp
  | sandboxEscape hatch =>
    have label : hatch.label.count '\n' = 0 := by cases hatch <;> decide
    simp (disch := decide +kernel) only [Finding.message, Cause.quoted, label, List.count_append, count_break_literal]
    rfl
  | belowRange effect amount =>
    have name : effect.name.count '\n' = 0 := by cases effect <;> decide
    simp (disch := decide +kernel) only [Finding.message, Finding.effectCall, Cause.quoted, name, List.count_append,
      List.count_cons, Binary64.count_break_toText, count_break_literal]
    rfl
  | aboveRange effect amount =>
    have name : effect.name.count '\n' = 0 := by cases effect <;> decide
    simp (disch := decide +kernel) only [Finding.message, Finding.effectCall, Cause.quoted, name, List.count_append,
      List.count_cons, Binary64.count_break_toText, count_break_literal]
    rfl
  | directPlay =>
    simp (disch := decide +kernel) only [Finding.message, Cause.quoted, count_break_literal]
    rfl
  | unclosedQuote quote =>
    have name : quote.name.count '\n' = 0 := by cases quote <;> decide
    have char : quote.char ≠ '\n' := by cases quote <;> decide
    simp (disch := decide +kernel) only [Finding.message, Cause.quoted, name, List.count_append, List.count_cons,
      Text.count_break_ofNat, count_break_literal]
    simp [char]
  | unbalanced bracket imbalance count =>
    have name : bracket.name.count '\n' = 0 := by cases bracket <;> decide
    have side : imbalance.name.count '\n' = 0 := by cases imbalance <;> decide
    have closer : bracket.closer ≠ '\n' := by cases bracket <;> decide
    simp (disch := decide +kernel) only [Finding.message, Cause.quoted, name, side, List.count_append, List.count_cons,
      Text.count_break_ofNat, count_break_literal]
    simp [closer]
  | differentScales scales =>
    have listed := count_intercalate (show '\n' ∉ ", ".toList by decide) scales
    simp (disch := decide +kernel) only [Finding.message, Cause.quoted, listed, List.count_append, count_break_literal]
    simp
  | unreadable error =>
    simp (disch := decide +kernel) only [Finding.message, Cause.quoted, List.count_append, count_break_literal]
    simp

/-! ### What findings quote -/

/-- Lines hold no line break, so what is quoted of a line holds none. -/
theorem LineRule.unbroken_of_mem_quoted {rule : LineRule} {line : Line} (unbroken : '\n' ∉ line.text)
    {finding : Finding} (member : finding ∈ rule.findings line) {text : Text} (quoted : text ∈ finding.cause.quoted) :
    '\n' ∉ text := by
  obtain ⟨before, reports, _⟩ := reports_of_mem member
  obtain ⟨number, column, cause⟩ := finding
  cases reports with
  | @sample o wave first _ =>
    rw [List.mem_singleton.mp quoted]
    -- the argument is a part of the call, and the call a part of the line
    obtain ⟨part, ofForm, parts⟩ := first.1.parts
    obtain ⟨_, _, _, _, _, _, ⟨_, _, _, _, _, _, rfl⟩, _, rfl⟩ := ofForm
    intro inArgument
    rw [parts] at unbroken
    simp [inArgument] at unbroken
  | _ => cases quoted

/-- A message without line breaks is one that quotes none. -/
theorem not_mem_message_iff (finding : Finding) :
    '\n' ∉ finding.message ↔ ∀ text ∈ finding.cause.quoted, '\n' ∉ text := by
  rw [← List.count_eq_zero, count_break_message, List.count_eq_zero]
  simp

/-- The number of line breaks in the messages of findings. -/
def breaks (findings : List Finding) : Nat := (findings.flatMap (·.message)).count '\n'

theorem breaks_append (a b : List Finding) : breaks (a ++ b) = breaks a + breaks b := by
  rw [breaks, List.flatMap_append, List.count_append]
  rfl

theorem breaks_eq_zero_iff {findings : List Finding} :
    breaks findings = 0 ↔ ∀ finding ∈ findings, '\n' ∉ finding.message := by
  rw [breaks, List.count_eq_zero]
  simp

namespace Lint

theorem breaks_linePhase (source : Text) : breaks (linePhase source) = 0 := by
  refine breaks_eq_zero_iff.mpr fun finding member => (not_mem_message_iff finding).mpr fun text quoted => ?_
  obtain ⟨line, inSource, found⟩ := List.mem_flatMap.mp member
  rw [lineFindings] at found
  split at found
  · cases found
  · obtain ⟨rule, _, found⟩ := List.mem_flatMap.mp found
    exact LineRule.unbroken_of_mem_quoted (Text.not_mem_of_mem_lines (text_mem_lines inSource)) found quoted

theorem breaks_sourcePhase (source : Text) : breaks (sourcePhase source) = breaks (Scales.findings source) := by
  have unquoted : ∀ rule : SourceRule, rule ≠ .scales → breaks (rule.findings source) = 0 := by
    intro rule other
    refine breaks_eq_zero_iff.mpr fun finding member => (not_mem_message_iff finding).mpr fun text quoted => ?_
    cases SourceRule.reports_of_mem member with
    | scales many => exact absurd rfl other
    | _ => cases quoted
  have phase : sourcePhase source =
      SourceRule.quotes.findings source ++ (SourceRule.brackets.findings source ++ Scales.findings source) := by
    simp [sourcePhase, SourceRule.all, SourceRule.findings]
  rw [phase, breaks_append, breaks_append, unquoted .quotes (by decide), unquoted .brackets (by decide), Nat.zero_add,
    Nat.zero_add]

/-- None of the scales that are reported spans lines. -/
def ScalesUnbroken (source : Text) : Prop :=
  2 ≤ (Scales.distinct source).length → ∀ scale ∈ Scales.distinct source, '\n' ∉ scale

theorem breaks_scales (source : Text) : breaks (Scales.findings source) =
    if 2 ≤ (Scales.distinct source).length then (Scales.distinct source).flatten.count '\n' else 0 := by
  rw [Scales.findings_eq]
  split
  · rw [breaks, List.flatMap_singleton, count_break_message, Cause.quoted]
  · rfl

theorem breaks_scales_iff (source : Text) : breaks (Scales.findings source) = 0 ↔ ScalesUnbroken source := by
  rw [breaks_scales, ScalesUnbroken]
  by_cases many : 2 ≤ (Scales.distinct source).length
  · rw [if_pos many, imp_iff_right many, List.count_eq_zero]
    simp
  · rw [if_neg many]
    exact iff_of_true rfl fun few => absurd few many

theorem breaks_findings (source : Text) : breaks (findings source) = breaks (Scales.findings source) := by
  rw [findings, breaks_append, breaks_linePhase, breaks_sourcePhase, Nat.zero_add]

end Lint

/-! ### Lines -/

/-- What stands before the line number of a diagnostic. -/
def Severity.heading : Severity → Text
  | error => "[ERROR] Line ".toList
  | warning => "[WARNING] Line ".toList

/-- The line of a diagnostic in a report. -/
def Diagnostic.reportLine (diagnostic : Diagnostic) : Text :=
  diagnostic.severity.heading ++ Text.ofNat diagnostic.line ++ ": ".toList ++ diagnostic.message

theorem Diagnostic.tagged_eq (diagnostic : Diagnostic) : diagnostic.tagged = diagnostic.reportLine := by
  have heading : '[' :: diagnostic.severity.name.map Char.toUpper ++ "] ".toList ++ "Line ".toList =
      diagnostic.severity.heading := by
    cases diagnostic.severity <;> decide
  calc diagnostic.tagged
      = '[' :: diagnostic.severity.name.map Char.toUpper ++ "] ".toList ++
          ("Line ".toList ++ Text.ofNat diagnostic.line ++ ": ".toList ++ diagnostic.message) := rfl
    _ = '[' :: diagnostic.severity.name.map Char.toUpper ++ "] ".toList ++ "Line ".toList ++
          Text.ofNat diagnostic.line ++ ": ".toList ++ diagnostic.message := by simp only [List.append_assoc]
    _ = diagnostic.reportLine := by
      rw [heading]
      rfl

theorem Diagnostic.count_break_reportLine (diagnostic : Diagnostic) :
    diagnostic.reportLine.count '\n' = diagnostic.message.count '\n' := by
  have heading : diagnostic.severity.heading.count '\n' = 0 := by cases diagnostic.severity <;> decide
  have colon : (": ".toList).count '\n' = 0 := by decide
  rw [reportLine, List.count_append, List.count_append, List.count_append, heading, Text.count_break_ofNat, colon,
    Nat.zero_add]

/-- The lines of a report are those of its diagnostics, one after the other. -/
theorem LintResult.lines_summary {result : LintResult} (reported : result.diagnostics ≠ []) :
    result.summary.lines = result.diagnostics.flatMap fun diagnostic => diagnostic.reportLine.lines := by
  have some_line : result.diagnostics.map (·.tagged) ≠ [] := by simpa using reported
  rw [summary, if_neg (by simpa using reported), Text.lines_unlines some_line, List.flatMap_map]
  simp only [Diagnostic.tagged_eq]

namespace Lint

theorem length_lines_reportLines (findings : List Finding) :
    (findings.flatMap fun finding => finding.diagnostic.reportLine.lines).length =
      findings.length + breaks findings := by
  induction findings with
  | nil => rfl
  | cons finding findings ih =>
    have one : finding.diagnostic.reportLine.lines.length = finding.message.count '\n' + 1 := by
      rw [Text.length_lines, Diagnostic.count_break_reportLine, Finding.diagnostic]
    rw [List.flatMap_cons, List.length_append, one, ih, breaks, breaks, List.flatMap_cons, List.count_append,
      List.length_cons]
    omega

/-- Each line break in a message adds a line. -/
theorem length_lines_summary {source : Text} (reported : (check source).diagnostics ≠ []) :
    (check source).summary.lines.length = (check source).diagnostics.length + breaks (findings source) := by
  rw [LintResult.lines_summary reported, check, List.flatMap_map, length_lines_reportLines, List.length_map]

theorem lines_summary_of_breaks_eq_zero {source : Text} (reported : (check source).diagnostics ≠ [])
    (none : breaks (findings source) = 0) :
    (check source).summary.lines = (check source).diagnostics.map (·.reportLine) := by
  have single : ∀ diagnostic ∈ (check source).diagnostics, diagnostic.reportLine.lines = [diagnostic.reportLine] := by
    intro diagnostic member
    obtain ⟨finding, found, rfl⟩ := List.mem_map.mp member
    have unbroken := List.count_eq_zero.mpr (breaks_eq_zero_iff.mp none finding found)
    exact Text.lines_eq_singleton (List.count_eq_zero.mp ((Diagnostic.count_break_reportLine _).trans unbroken))
  rw [LintResult.lines_summary reported, List.flatMap_congr single]
  exact List.flatMap_pure_eq_map _ _

/-- The report of a source with diagnostics has as many lines as it has diagnostics, and its lines are those of the
    diagnostics in their order, just when no scale that it lists spans lines. Each line break in a listed scale adds
    a line. -/
theorem lines_summary_exact (source : Text) (reported : (check source).diagnostics ≠ []) :
    ((check source).summary.lines.length = (check source).diagnostics.length ↔ ScalesUnbroken source) ∧
    ((check source).summary.lines = (check source).diagnostics.map (·.reportLine) ↔ ScalesUnbroken source) ∧
    (check source).summary.lines.length = (check source).diagnostics.length +
      if 2 ≤ (Scales.distinct source).length then (Scales.distinct source).flatten.count '\n' else 0 := by
  have length := length_lines_summary reported
  have lengths : (check source).summary.lines.length = (check source).diagnostics.length ↔ ScalesUnbroken source := by
    rw [length, Nat.add_eq_left, breaks_findings, breaks_scales_iff]
  refine ⟨lengths, ⟨fun lines => lengths.mp ?_, fun unbroken => ?_⟩, ?_⟩
  · rw [lines, List.length_map]
  · refine lines_summary_of_breaks_eq_zero reported ?_
    rw [breaks_findings]
    exact (breaks_scales_iff source).mpr unbroken
  · rw [length, breaks_findings, breaks_scales]

/-- Two warnings, one of them on two scales of a single line. -/
theorem lines_summary_exact_two_warnings :
    (check "n(0).scale('c').scale('d')\nx.lpf(9)".toList).diagnostics ≠ [] ∧
    ((check "n(0).scale('c').scale('d')\nx.lpf(9)".toList).summary.lines.length =
        (check "n(0).scale('c').scale('d')\nx.lpf(9)".toList).diagnostics.length ↔
      ScalesUnbroken "n(0).scale('c').scale('d')\nx.lpf(9)".toList) :=
  have reported : (check "n(0).scale('c').scale('d')\nx.lpf(9)".toList).diagnostics ≠ [] := by decide +kernel
  ⟨reported, (lines_summary_exact _ reported).1⟩

/-- A scale over two lines forges a line of the report. -/
theorem forged_line_of_scale :
    (check ".scale('c').scale('d\n[ERROR] Line 9: x')".toList).diagnostics.length = 1 ∧
    (check ".scale('c').scale('d\n[ERROR] Line 9: x')".toList).summary.lines =
      ["[WARNING] Line 1: Multiple different scales detected: c, d".toList,
        "[ERROR] Line 9: x. Consider using a single scale for harmonic consistency.".toList] := by
  decide +kernel

end Lint
end PatternLint
