import PatternLint.Proofs.BracketCount
import PatternLint.Proofs.LineRules
import PatternLint.Proofs.QuoteScan

/-!
# What a rule can report

What a rule about lines reports is reported behind a part of the line (`LineRule.reports_of_mem`), what a rule about
the whole source at the place of an open quote or at its start (`SourceRule.reports_of_mem`). All that a rule reports
has the severity of the catalogue.
-/
namespace PatternLint

/-! ### Rules about lines -/

/-- What a rule reports on a line, behind the text that stands before it. -/
inductive LineRule.Reports (line : Line) : LineRule → Text → Cause → Prop
  | sample {o : Occurrence Text} {wave : Waveform} : Sample.FirstCall line.text o →
      sampleRoot o.captured = wave.name → Reports line sample o.before (.waveformAsSample o.captured wave)
  | escape {o : Occurrence Unit} {hatch : EscapeHatch} : hatch.pattern.find? line.text = some o →
      Reports line escape o.before (.sandboxEscape hatch)
  | below {o : Occurrence Text} {effect : Effect} {amount : Decimal} :
      (Range.effectCall effect).find? line.text = some o → Decimal.ofText? o.captured = some amount →
      (Binary64.nearest amount).below (Binary64.nearest effect.least) = true →
      Reports line range o.before (.belowRange effect (Binary64.nearest amount))
  | above {o : Occurrence Text} {effect : Effect} {amount : Decimal} :
      (Range.effectCall effect).find? line.text = some o → Decimal.ofText? o.captured = some amount →
      (Binary64.nearest effect.greatest).below (Binary64.nearest amount) = true →
      Reports line range o.before (.aboveRange effect (Binary64.nearest amount))
  | playback {o : Occurrence Unit} : Playback.playName.find? line.text = some o →
      Reports line playback o.before .directPlay

theorem LineRule.reports_of_mem {rule : LineRule} {line : Line} {finding : Finding}
    (member : finding ∈ rule.findings line) :
    ∃ before, rule.Reports line before finding.cause ∧
      finding = ⟨line.number, line.text.columnAt (Text.byteLength before), finding.cause⟩ := by
  cases rule with
  | sample =>
    obtain ⟨call, first, wave, named, rfl⟩ := Sample.mem_findings_iff.mp member
    exact ⟨call.before, .sample first named, rfl⟩
  | escape =>
    obtain ⟨hatch, place, _, found, rfl⟩ := Escape.mem_findings_iff.mp member
    exact ⟨place.before, .escape found, rfl⟩
  | range =>
    obtain ⟨effect, _, found⟩ := List.mem_filterMap.mp member
    obtain ⟨call, amount, cause, called, read, judged, rfl⟩ := Range.finding?_eq_some_iff.mp found
    rcases Range.judge_eq_some_iff.mp judged with ⟨below, rfl⟩ | ⟨_, above, rfl⟩
    · exact ⟨call.before, .below called read below, rfl⟩
    · exact ⟨call.before, .above called read above, rfl⟩
  | playback =>
    obtain ⟨_, name, found, rfl⟩ := Playback.mem_findings_iff.mp member
    exact ⟨name.before, .playback found, rfl⟩

theorem LineRule.severity_of_mem (rule : LineRule) {line : Line} {finding : Finding}
    (member : finding ∈ rule.findings line) : finding.cause.severity = (Rule.onLine rule).severity := by
  obtain ⟨before, reports, _⟩ := reports_of_mem member
  obtain ⟨number, column, cause⟩ := finding
  cases reports <;> rfl

/-! ### Rules about the whole source -/

/-- Different scales are reported when there are two or more. -/
theorem Scales.findings_eq (source : Text) :
    findings source = if 2 ≤ (distinct source).length then [⟨1, 1, .differentScales (distinct source)⟩] else [] := by
  rw [findings]
  split
  · next first second more listed => rw [listed, if_pos (by simp)]
  · next other =>
    refine (if_neg fun many => ?_).symm
    match scales : distinct source, many with
    | first :: second :: more, _ => exact other first second more scales

/-- What a rule reports for a source. -/
inductive SourceRule.Reports (source : Text) : SourceRule → Finding → Prop
  | quotes {quote : Quote} {place : Quotes.Place} :
      (Quotes.scan .start source).current = some (quote, place) →
      Reports source quotes ⟨place.line, place.column, .unclosedQuote quote⟩
  | brackets {bracket : Bracket} {depth : Int} : Brackets.excess bracket (Brackets.code source) = depth → depth ≠ 0 →
      Reports source brackets ⟨1, 1, .unbalanced bracket (if 0 < depth then .missing else .extra) depth.natAbs⟩
  | scales : 2 ≤ (Scales.distinct source).length →
      Reports source scales ⟨1, 1, .differentScales (Scales.distinct source)⟩

theorem SourceRule.reports_of_mem {rule : SourceRule} {source : Text} {finding : Finding}
    (member : finding ∈ rule.findings source) : rule.Reports source finding := by
  cases rule with
  | quotes =>
    rw [SourceRule.findings, Quotes.findings_eq] at member
    split at member
    · cases member
    · next quote place opened =>
      rw [List.mem_singleton.mp member]
      exact .quotes opened
  | brackets =>
    obtain ⟨bracket, _, found⟩ := List.mem_filterMap.mp member
    dsimp only at found
    rw [Brackets.get_depthsAtEnd] at found
    split at found
    · cases found
    · next uneven =>
      cases found
      exact .brackets rfl uneven
  | scales =>
    rw [SourceRule.findings, Scales.findings_eq] at member
    split at member
    · next many =>
      rw [List.mem_singleton.mp member]
      exact .scales many
    · cases member

theorem SourceRule.severity_of_mem (rule : SourceRule) {source : Text} {finding : Finding}
    (member : finding ∈ rule.findings source) : finding.cause.severity = (Rule.onSource rule).severity := by
  cases reports_of_mem member <;> rfl

end PatternLint
