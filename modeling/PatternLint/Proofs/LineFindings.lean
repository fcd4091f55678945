import PatternLint.Lint
import PatternLint.Proofs.RuleFindings

/-!
# Findings line by line

The line rules look at one line at a time and at nothing but its text (`LineRule.findings_number`). So the line phase
on sources that are joined finds what it finds on the first and then, further down, what it finds on the second, and
another text on one line changes nothing that is found on the other lines (`Lint.lineDiagnostics_local`).
-/
namespace PatternLint

/-- A line of the same text, some lines further down. -/
def Line.moved (lines : Nat) (line : Line) : Line := { line with number := line.number + lines }

/-- The same finding some lines further down. -/
def Finding.moved (lines : Nat) (finding : Finding) : Finding := { finding with line := finding.line + lines }

/-- The same diagnostic some lines further down. -/
def Diagnostic.moved (lines : Nat) (diagnostic : Diagnostic) : Diagnostic :=
  { diagnostic with line := diagnostic.line + lines }

/-! ### One line -/

theorem Range.finding?_number (line : Line) (effect : Effect) (number : Nat) :
    finding? { line with number := number } effect =
      (finding? line effect).map fun finding => { finding with line := number } := by
  simp only [finding?]
  cases (effectCall effect).find? line.text with
  | none => rfl
  | some call =>
    dsimp only
    cases Decimal.ofText? call.captured with
    | none => rfl
    | some amount =>
      dsimp only
      rw [Option.map_map]
      rfl

/-- A rule finds the same on a line of the same text with another number. -/
theorem LineRule.findings_number (rule : LineRule) (line : Line) (number : Nat) :
    rule.findings { line with number := number } =
      (rule.findings line).map fun finding => { finding with line := number } := by
  cases rule with
  | sample =>
    simp only [findings, Sample.findings]
    cases Sample.standaloneCall.find? line.text with
    | none => rfl
    | some call =>
      dsimp only
      rw [List.map_map]
      rfl
  | escape =>
    simp only [findings, Escape.findings]
    cases Escape.firstHatch? line.text <;> rfl
  | range =>
    simp only [findings, Range.findings, List.map_filterMap]
    exact List.filterMap_congr fun effect _ => Range.finding?_number line effect number
  | playback =>
    rw [findings, Playback.findings, Playback.findings]
    dsimp only
    by_cases played : (Playback.playCall.occursIn line.text && !Playback.playbackState.occursIn line.text) = true
    · rw [if_pos played, if_pos played]
      rfl
    · rw [if_neg played, if_neg played]
      rfl

/-- What a rule finds on a line carries the number of the line. -/
theorem LineRule.line_of_mem {rule : LineRule} {line : Line} {finding : Finding}
    (member : finding ∈ rule.findings line) : finding.line = line.number := by
  obtain ⟨before, _, placed⟩ := reports_of_mem member
  rw [placed]

/-- A rule finds the same on a line of the same text further down. -/
theorem LineRule.findings_moved (rule : LineRule) (line : Line) (lines : Nat) :
    rule.findings (line.moved lines) = (rule.findings line).map (·.moved lines) := by
  rw [Line.moved, findings_number]
  refine List.map_congr_left fun finding member => ?_
  rw [Finding.moved, line_of_mem member]

/-- What a line rule reports says nothing of the number of the line. -/
theorem LineRule.diagnostic_moved {rule : LineRule} {line : Line} {finding : Finding}
    (member : finding ∈ rule.findings line) (lines : Nat) :
    (finding.moved lines).diagnostic = finding.diagnostic.moved lines := by
  obtain ⟨before, reports, _⟩ := reports_of_mem member
  obtain ⟨number, column, cause⟩ := finding
  cases reports <;> rfl

namespace Lint

/-- The diagnostics of the line rules on a line. -/
def diagnosticsOn (line : Line) : List Diagnostic := (lineFindings line).map (·.diagnostic)

/-- The diagnostics of the line phase. -/
def lineDiagnostics (source : Text) : List Diagnostic := (linePhase source).map (·.diagnostic)

theorem lineDiagnostics_eq (source : Text) : lineDiagnostics source = (Line.ofSource source).flatMap diagnosticsOn := by
  rw [lineDiagnostics, linePhase, List.map_flatMap]
  rfl

theorem exists_rule_of_mem {line : Line} {finding : Finding} (member : finding ∈ lineFindings line) :
    ∃ rule : LineRule, finding ∈ rule.findings line := by
  rw [lineFindings] at member
  split at member
  · cases member
  · obtain ⟨rule, _, found⟩ := List.mem_flatMap.mp member
    exact ⟨rule, found⟩

theorem lineFindings_moved (line : Line) (lines : Nat) :
    lineFindings (line.moved lines) = (lineFindings line).map (·.moved lines) := by
  have same : (line.moved lines).isSkipped = line.isSkipped := rfl
  rw [lineFindings, lineFindings, same]
  split
  · rfl
  · rw [List.map_flatMap]
    exact List.flatMap_congr fun rule _ => rule.findings_moved line lines

theorem diagnosticsOn_moved (line : Line) (lines : Nat) :
    diagnosticsOn (line.moved lines) = (diagnosticsOn line).map (·.moved lines) := by
  rw [diagnosticsOn, diagnosticsOn, lineFindings_moved, List.map_map, List.map_map]
  refine List.map_congr_left fun finding member => ?_
  obtain ⟨rule, found⟩ := exists_rule_of_mem member
  exact LineRule.diagnostic_moved found lines

/-- The diagnostics on a line carry its number. -/
theorem line_of_mem_diagnosticsOn {line : Line} {diagnostic : Diagnostic} (member : diagnostic ∈ diagnosticsOn line) :
    diagnostic.line = line.number := by
  obtain ⟨finding, found, rfl⟩ := List.mem_map.mp member
  obtain ⟨rule, reported⟩ := exists_rule_of_mem found
  exact LineRule.line_of_mem reported

end Lint

/-! ### Lines of a source -/

theorem Line.ofSource_append_break (a b : Text) :
    ofSource (a ++ '\n' :: b) = ofSource a ++ (ofSource b).map (·.moved a.lines.length) := by
  rw [ofSource, Text.lines_append_break, List.mapIdx_append]
  congr 1
  refine List.ext_getElem (by simp [ofSource]) fun index _ _ => ?_
  simp only [ofSource, moved, List.getElem_map, List.getElem_mapIdx]
  congr 1
  omega

theorem Line.number_getElem {source : Text} {index : Nat} (inside : index < (ofSource source).length) :
    (ofSource source)[index].number = index + 1 := by
  simp [ofSource]

/-- Another text on one line leaves the other lines as they are. -/
theorem Line.ofSource_unlines_set (source : Text) (index : Nat) {text : Text} (unbroken : '\n' ∉ text) :
    ofSource (Text.unlines (source.lines.set index text)) = (ofSource source).set index ⟨index + 1, text⟩ := by
  have pieces : (Text.unlines (source.lines.set index text)).lines = source.lines.set index text := by
    refine Text.lines_unlines_of_unbroken ?_ fun line member => ?_
    · rw [Ne, List.set_eq_nil_iff]
      exact Text.splitOn_ne_nil '\n' source
    · rcases List.mem_or_eq_of_mem_set member with old | rfl
      · exact Text.not_mem_of_mem_lines old
      · exact unbroken
  rw [ofSource, pieces, List.mapIdx_set]
  rfl

namespace Lint

/-- The diagnostics on a line unless it has a certain number. -/
def diagnosticsOff (number : Nat) (line : Line) : List Diagnostic :=
  if line.number = number then [] else diagnosticsOn line

theorem filter_lineDiagnostics (source : Text) (number : Nat) :
    (lineDiagnostics source).filter (·.line ≠ number) = (Line.ofSource source).flatMap (diagnosticsOff number) := by
  rw [lineDiagnostics_eq, List.filter_flatMap]
  refine List.flatMap_congr fun line _ => ?_
  rw [diagnosticsOff]
  split
  · next same =>
    refine List.filter_eq_nil_iff.mpr fun diagnostic member => ?_
    simp [line_of_mem_diagnosticsOn member, same]
  · next other =>
    refine List.filter_eq_self.mpr fun diagnostic member => ?_
    simp [line_of_mem_diagnosticsOn member, other]

/-- What is off a line does not see what stands on it. -/
theorem flatMap_diagnosticsOff_set (source : Text) (index : Nat) (text : Text) :
    ((Line.ofSource source).set index ⟨index + 1, text⟩).flatMap (diagnosticsOff (index + 1)) =
      (Line.ofSource source).flatMap (diagnosticsOff (index + 1)) := by
  by_cases inside : index < (Line.ofSource source).length
  · have old : diagnosticsOff (index + 1) (Line.ofSource source)[index] = [] := if_pos (Line.number_getElem inside)
    have new : diagnosticsOff (index + 1) ⟨index + 1, text⟩ = [] := if_pos rfl
    have whole := List.take_append_drop index (Line.ofSource source)
    rw [List.drop_eq_getElem_cons inside] at whole
    rw [List.set_eq_take_append_cons_drop, if_pos inside, List.flatMap_append, List.flatMap_cons, new, ← old,
      ← List.flatMap_cons, ← List.flatMap_append, whole]
  · rw [List.set_eq_of_length_le (by omega)]

/-- On joined sources the line phase reports what it reports on the first, and then what it reports on the second as
    many lines further down as the first has. Another text on one line changes nothing on the other lines. -/
theorem lineDiagnostics_local (a b : Text) :
    lineDiagnostics (a ++ '\n' :: b) =
      lineDiagnostics a ++ (lineDiagnostics b).map (·.moved (a.count '\n' + 1)) ∧
    ∀ index text, '\n' ∉ text →
      (lineDiagnostics (Text.unlines (a.lines.set index text))).filter (·.line ≠ index + 1) =
        (lineDiagnostics a).filter (·.line ≠ index + 1) := by
  refine ⟨?_, fun index text unbroken => ?_⟩
  · rw [lineDiagnostics_eq, Line.ofSource_append_break, List.flatMap_append, ← lineDiagnostics_eq, lineDiagnostics_eq b,
      List.map_flatMap, List.flatMap_map, Text.length_lines]
    congr 1
    exact List.flatMap_congr fun line _ => diagnosticsOn_moved line _
  · rw [filter_lineDiagnostics, filter_lineDiagnostics, Line.ofSource_unlines_set a index unbroken,
      flatMap_diagnosticsOff_set]

/-- An escape on the empty line between a sample and an amount. -/
theorem lineDiagnostics_local_between :
    '\n' ∉ "eval(1)".toList ∧
    (lineDiagnostics (Text.unlines ((Text.lines "s('sine')\n\nx.lpf(9000)".toList).set 1 "eval(1)".toList))).map (·.line) =
      [1, 2, 3] ∧
    (lineDiagnostics (Text.unlines ((Text.lines "s('sine')\n\nx.lpf(9000)".toList).set 1 "eval(1)".toList))).filter
      (·.line ≠ 2) = (lineDiagnostics "s('sine')\n\nx.lpf(9000)".toList).filter (·.line ≠ 2) :=
  ⟨by decide, by decide +kernel, (lineDiagnostics_local _ []).2 1 "eval(1)".toList (by decide)⟩

end Lint
end PatternLint
