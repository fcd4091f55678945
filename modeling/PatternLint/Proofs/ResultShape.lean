import PatternLint.Proofs.SkippedLines

/-!
# The shape of a result

A result goes through the lines first and then reports on the source as a whole. On a line as on the source each thing
has one slot, and the slots have an order: what is found is a part of the slots in that order, so nothing is found twice
(`Slot.onLine`, `Slot.onSource`). What has a place is placed at a character of the source, and what has none at its start
(`Lint.shape_exact`).
-/
namespace PatternLint

/-- What a finding is about. Brackets and effects have a slot each. -/
inductive Slot where
  | sample
  | escape
  | amount (effect : Effect)
  | playback
  | quote
  | bracket (bracket : Bracket)
  | scales
  | file
  deriving Repr, DecidableEq

namespace Slot

/-- What can be found on a line, in the order of reports. -/
def onLine : List Slot := [sample, escape] ++ Effect.all.map amount ++ [playback]

/-- What can be found for a source as a whole, in the order of reports. -/
def onSource : List Slot := [quote] ++ Bracket.all.map bracket ++ [scales]

end Slot

def Cause.slot : Cause → Slot
  | waveformAsSample _ _ => .sample
  | sandboxEscape _ => .escape
  | belowRange effect _ | aboveRange effect _ => .amount effect
  | directPlay => .playback
  | unclosedQuote _ => .quote
  | unbalanced bracket _ _ => .bracket bracket
  | differentScales _ => .scales
  | unreadable _ => .file

/-- The slots of findings, in their order. -/
def slotsOf (findings : List Finding) : List Slot := findings.map (·.cause.slot)

/-! ### Slots of the rules -/

/-- What is picked from a list, one for one, is a part of it. -/
theorem filterMap_sublist_map {α β : Type} {pick : α → Option β} {whole : α → β}
    (own : ∀ a b, pick a = some b → b = whole a) (list : List α) : (list.filterMap pick).Sublist (list.map whole) := by
  induction list with
  | nil => exact .slnil
  | cons a list ih =>
    cases picked : pick a with
    | none =>
      rw [List.filterMap_cons_none picked, List.map_cons]
      exact ih.cons (whole a)
    | some b =>
      rw [List.filterMap_cons_some picked, List.map_cons, own a b picked]
      exact ih.cons_cons (whole a)

theorem slotsOf_append (a b : List Finding) : slotsOf (a ++ b) = slotsOf a ++ slotsOf b := List.map_append

theorem Sample.slotsOf_findings (line : Line) : (slotsOf (findings line)).Sublist [.sample] := by
  by_cases silent : findings line = []
  · simp [silent, slotsOf]
  · obtain ⟨finding, reported⟩ := List.exists_mem_of_ne_nil _ silent
    obtain ⟨call, first, wave, named, rfl⟩ := mem_findings_iff.mp reported
    simp [findings_eq_singleton first named, slotsOf, Cause.slot]

theorem Escape.slotsOf_findings (line : Line) : (slotsOf (findings line)).Sublist [.escape] := by
  unfold findings
  split <;> simp [slotsOf, Cause.slot]

theorem Range.slot_of_finding? {line : Line} {effect : Effect} {finding : Finding}
    (found : finding? line effect = some finding) : finding.cause.slot = .amount effect := by
  obtain ⟨_, _, cause, _, _, judged, rfl⟩ := finding?_eq_some_iff.mp found
  rcases judge_eq_some_iff.mp judged with ⟨_, rfl⟩ | ⟨_, _, rfl⟩ <;> rfl

theorem Range.slotsOf_findings (line : Line) : (slotsOf (findings line)).Sublist (Effect.all.map .amount) := by
  rw [slotsOf, findings, List.map_filterMap]
  refine filterMap_sublist_map (fun effect slot found => ?_) Effect.all
  obtain ⟨finding, own, rfl⟩ := Option.map_eq_some_iff.mp found
  exact slot_of_finding? own

theorem Playback.slotsOf_findings (line : Line) : (slotsOf (findings line)).Sublist [.playback] := by
  unfold findings
  split <;> simp [slotsOf, Cause.slot]

/-- On a line nothing is found twice, and what is found comes in the order of the slots. -/
theorem Lint.slotsOf_lineFindings (line : Line) : (slotsOf (lineFindings line)).Sublist Slot.onLine := by
  unfold lineFindings
  split
  · simp [slotsOf]
  · have rules := ((Sample.slotsOf_findings line).append (Escape.slotsOf_findings line)).append
      ((Range.slotsOf_findings line).append (Playback.slotsOf_findings line))
    simpa [LineRule.all, LineRule.findings, Slot.onLine, slotsOf_append] using rules

theorem Quotes.slotsOf_findings (source : Text) : (slotsOf (findings source)).Sublist [.quote] := by
  rw [findings_eq]
  split <;> simp [slotsOf, Cause.slot]

theorem Brackets.slotsOf_findings (source : Text) : (slotsOf (findings source)).Sublist (Bracket.all.map .bracket) := by
  rw [slotsOf, findings, List.map_filterMap]
  refine filterMap_sublist_map (fun bracket slot found => ?_) Bracket.all
  obtain ⟨finding, own, rfl⟩ := Option.map_eq_some_iff.mp found
  dsimp only at own
  split at own
  · cases own
  · cases own
    rfl

theorem Scales.slotsOf_findings (source : Text) : (slotsOf (findings source)).Sublist [.scales] := by
  rw [findings_eq]
  split <;> simp [slotsOf, Cause.slot]

/-- For a source as a whole nothing is found twice either. -/
theorem Lint.slotsOf_sourcePhase (source : Text) : (slotsOf (sourcePhase source)).Sublist Slot.onSource := by
  have rules := ((Quotes.slotsOf_findings source).append (Brackets.slotsOf_findings source)).append
    (Scales.slotsOf_findings source)
  simpa [sourcePhase, SourceRule.all, SourceRule.findings, Slot.onSource, slotsOf_append] using rules

/-! ### The order of the lines -/

theorem Line.pairwise_ofSource (source : Text) : (ofSource source).Pairwise (·.number < ·.number) := by
  rw [List.pairwise_iff_getElem]
  intro i j insideI insideJ before
  rw [number_getElem insideI, number_getElem insideJ]
  omega

namespace Lint

theorem line_of_mem_lineFindings {line : Line} {finding : Finding} (member : finding ∈ lineFindings line) :
    finding.line = line.number := by
  obtain ⟨rule, found⟩ := exists_rule_of_mem member
  exact LineRule.line_of_mem found

theorem pairwise_linePhase (source : Text) : (linePhase source).Pairwise (·.line ≤ ·.line) := by
  rw [linePhase, List.pairwise_flatMap]
  constructor
  · intro line _
    refine List.pairwise_of_forall_mem_list fun a first b second => ?_
    rw [line_of_mem_lineFindings first, line_of_mem_lineFindings second]
  · refine (Line.pairwise_ofSource source).imp fun {a b} before first inFirst second inSecond => ?_
    rw [line_of_mem_lineFindings inFirst, line_of_mem_lineFindings inSecond]
    exact Nat.le_of_lt before

/-- What is found on one of several lines with numbers in ascending order is what is found on that line alone. -/
theorem filter_flatMap_lineFindings {lines : List Line} (ascending : lines.Pairwise (·.number < ·.number))
    (number : Nat) : (lines.flatMap lineFindings).filter (·.line = number) = [] ∨
      ∃ line ∈ lines, (lines.flatMap lineFindings).filter (·.line = number) = lineFindings line := by
  induction lines with
  | nil => simp
  | cons line lines ih =>
    obtain ⟨first, ascending⟩ := List.pairwise_cons.mp ascending
    rw [List.flatMap_cons, List.filter_append]
    by_cases own : line.number = number
    · right
      refine ⟨line, List.mem_cons_self, ?_⟩
      have kept : (lineFindings line).filter (·.line = number) = lineFindings line :=
        List.filter_eq_self.mpr fun finding member => by simp [line_of_mem_lineFindings member, own]
      have none : (lines.flatMap lineFindings).filter (·.line = number) = [] := by
        refine List.filter_eq_nil_iff.mpr fun finding member => ?_
        obtain ⟨other, later, found⟩ := List.mem_flatMap.mp member
        have below := first other later
        rw [line_of_mem_lineFindings found, decide_eq_true_iff]
        omega
      rw [kept, none, List.append_nil]
    · have dropped : (lineFindings line).filter (·.line = number) = [] :=
        List.filter_eq_nil_iff.mpr fun finding member => by simp [line_of_mem_lineFindings member, own]
      rw [dropped, List.nil_append]
      rcases ih ascending with none | ⟨other, later, alone⟩
      · exact .inl none
      · exact .inr ⟨other, List.mem_cons_of_mem line later, alone⟩

theorem slotsOf_onLine (source : Text) (number : Nat) :
    (slotsOf ((linePhase source).filter (·.line = number))).Sublist Slot.onLine := by
  rcases filter_flatMap_lineFindings (Line.pairwise_ofSource source) number with none | ⟨line, _, alone⟩
  · rw [linePhase, none]
    simp [slotsOf]
  · rw [linePhase, alone]
    exact slotsOf_lineFindings line

end Lint

/-! ### Places -/

/-- Whether a finding is placed at a character of a line of a source. -/
structure Finding.IsOn (source text : Text) (finding : Finding) : Prop where
  first : 1 ≤ finding.line
  last : finding.line ≤ source.lines.length
  line : source.lines[finding.line - 1]? = some text
  column : 1 ≤ finding.column
  inside : finding.column ≤ text.length

theorem Line.exists_of_mem {source : Text} {line : Line} (member : line ∈ ofSource source) :
    1 ≤ line.number ∧ line.number ≤ source.lines.length ∧ source.lines[line.number - 1]? = some line.text := by
  obtain ⟨index, inside, rfl⟩ := List.mem_mapIdx.mp member
  simp only [Nat.add_sub_cancel, List.getElem?_eq_getElem inside]
  exact ⟨by omega, by omega, trivial⟩

/-- What is reported behind a part of a line is reported before the end of the line. -/
theorem LineRule.Reports.shorter {line : Line} {rule : LineRule} {before : Text} {cause : Cause}
    (reports : rule.Reports line before cause) : ∃ rest, rest ≠ [] ∧ line.text = before ++ rest := by
  have parts {α : Type} {pattern : Pattern α} {o : Occurrence α} (found : pattern.find? line.text = some o) :
      ∃ rest, rest ≠ [] ∧ line.text = o.before ++ rest := by
    obtain ⟨word, some_word, is⟩ := Pattern.find?_parts found
    exact ⟨word ++ o.after, by simp [some_word], by simp [is]⟩
  cases reports with
  | sample first => exact parts ((Sample.find?_standaloneCall_iff line.text _).mpr first)
  | escape found => exact parts found
  | below found => exact parts found
  | above found => exact parts found
  | playback found => exact parts found

/-- What is found on a line is placed at a character of the line, and the line is not skipped. -/
theorem Lint.isOn_of_mem_linePhase {source : Text} {finding : Finding} (member : finding ∈ linePhase source) :
    ∃ text, finding.IsOn source text ∧ ¬ Skipped text := by
  obtain ⟨line, inSource, found⟩ := List.mem_flatMap.mp member
  have counts : ¬ Skipped line.text := by
    rw [← isSkipped_iff]
    intro skipped
    rw [lineFindings, if_pos skipped] at found
    cases found
  obtain ⟨rule, reported⟩ := exists_rule_of_mem found
  obtain ⟨before, reports, placed⟩ := LineRule.reports_of_mem reported
  obtain ⟨rest, some_rest, parts⟩ := reports.shorter
  obtain ⟨first, last, there⟩ := Line.exists_of_mem inSource
  have column : finding.column = before.length + 1 := by
    rw [placed, parts]
    exact Text.columnAt_byteLength before rest
  have number : finding.line = line.number := line_of_mem_lineFindings found
  have length : line.text.length = before.length + rest.length := by simp [parts]
  have positive := List.length_pos_iff.mpr some_rest
  exact ⟨line.text, ⟨by omega, by omega, by rw [number]; exact there, by omega, by omega⟩, counts⟩

namespace Quotes

theorem get_toggle {quotes : OpenQuotes} {met quote : Quote} {here place : Place}
    (opened : (quotes.toggle met here).get quote = some place) : quotes.get quote = some place ∨ place = here := by
  unfold OpenQuotes.toggle at opened
  split at opened
  · exact .inl opened
  · by_cases own : quote = met
    · right
      subst own
      have set (place : Option Place) : (quotes.set place quote).get quote = place := by cases quote <;> rfl
      rw [set] at opened
      split at opened
      · cases opened
      · exact (Option.some.inj opened).symm
    · left
      cases quote <;> cases met <;> first | exact absurd rfl own | exact opened

/-- A quote that is open behind a line was open before it or is opened at a character of the line. -/
theorem get_scanLine {line column : Nat} {hidden : Bool} {quotes : OpenQuotes} {text : Text} {quote : Quote}
    {place : Place} (opened : (scanLine line column hidden quotes text).get quote = some place) :
    quotes.get quote = some place ∨
      place.line = line ∧ column ≤ place.column ∧ place.column < column + text.length := by
  induction text generalizing column hidden quotes with
  | nil => cases hidden <;> exact .inl opened
  | cons c text ih =>
    have later {hidden : Bool} {before : OpenQuotes}
        (opened : (scanLine line (column + 1) hidden before text).get quote = some place) :
        before.get quote = some place ∨
          place.line = line ∧ column ≤ place.column ∧ place.column < column + (c :: text).length := by
      rcases ih opened with old | ⟨own, low, high⟩
      · exact .inl old
      · right
        refine ⟨own, by omega, ?_⟩
        rw [List.length_cons]
        omega
    cases hidden with
    | true => exact later opened
    | false =>
      simp only [scanLine] at opened
      split at opened
      · exact later opened
      · split at opened
        · rcases later opened with toggled | new
          · rcases get_toggle toggled with old | rfl
            · exact .inl old
            · exact .inr ⟨rfl, Nat.le_refl _, by simp⟩
          · exact .inr new
        · exact later opened

theorem get_foldl_scanNext {lines : List Line} {quotes : OpenQuotes} {quote : Quote} {place : Place}
    (opened : (lines.foldl scanNext quotes).get quote = some place) : quotes.get quote = some place ∨
      ∃ line ∈ lines, place.line = line.number ∧ 1 ≤ place.column ∧ place.column ≤ line.text.length := by
  induction lines generalizing quotes with
  | nil => exact .inl opened
  | cons line lines ih =>
    rcases ih opened with before | ⟨other, later, placed⟩
    · rcases get_scanLine before with old | ⟨own, low, high⟩
      · exact .inl old
      · exact .inr ⟨line, List.mem_cons_self, own, low, by omega⟩
    · exact .inr ⟨other, List.mem_cons_of_mem line later, placed⟩

/-- An open quote is reported at the character that opens it. -/
theorem isOn_of_mem_findings {source : Text} {finding : Finding} (member : finding ∈ findings source) :
    ∃ text, finding.IsOn source text := by
  obtain ⟨quote, _, found⟩ := List.mem_filterMap.mp member
  obtain ⟨place, opened, rfl⟩ := Option.map_eq_some_iff.mp found
  have opened : ((Line.ofSource source).foldl scanNext {}).get quote = some place := opened
  rcases get_foldl_scanNext opened with nothing | ⟨line, inSource, own, low, high⟩
  · cases quote <;> cases nothing
  · obtain ⟨first, last, there⟩ := Line.exists_of_mem inSource
    exact ⟨line.text, ⟨own ▸ first, own ▸ last, own ▸ there, low, high⟩⟩

end Quotes

/-! ### Results -/

namespace Lint

/-- What is known of the findings on the lines of a source and of those on the source as a whole. -/
structure Shape (source : Text) (onLines onSource : List Finding) : Prop where
  ascending : onLines.Pairwise (·.line ≤ ·.line)
  /-- On each line a finding for some of the slots, in their order. -/
  ofLine : ∀ number, (slotsOf (onLines.filter (·.line = number))).Sublist Slot.onLine
  atMostEight : ∀ number, (onLines.filter (·.line = number)).length ≤ 8
  /-- For the source a finding for some of the slots, in their order. -/
  ofSource : (slotsOf onSource).Sublist Slot.onSource
  placed : ∀ finding ∈ onLines, ∃ text, finding.IsOn source text ∧ ¬ Skipped text
  quoted : ∀ finding ∈ onSource, finding.cause.slot = .quote → ∃ text, finding.IsOn source text
  unplaced : ∀ finding ∈ onSource, finding.cause.slot ≠ .quote → finding.line = 1 ∧ finding.column = 1

/-- A result is the findings on the lines, with ascending numbers and on each line at most one for each of its eight
    slots in their order, and then those on the source, at most one for each of its slots in their order. All that has a
    place is placed at a character of the source, and not on a line that is skipped unless it is a quote. -/
theorem shape_exact (source : Text) :
    (check source).diagnostics = (linePhase source).map (·.diagnostic) ++ (sourcePhase source).map (·.diagnostic) ∧
    Shape source (linePhase source) (sourcePhase source) := by
  have eight : Slot.onLine.length = 8 := by decide
  refine ⟨by rw [check, findings, List.map_append], ?_⟩
  refine ⟨pairwise_linePhase source, slotsOf_onLine source, fun number => ?_, slotsOf_sourcePhase source,
    fun finding member => isOn_of_mem_linePhase member, fun finding member own => ?_, fun finding member other => ?_⟩
  · have few := (slotsOf_onLine source number).length_le
    rw [slotsOf, List.length_map, eight] at few
    exact few
  · obtain ⟨rule, _, found⟩ := List.mem_flatMap.mp member
    cases rule with
    | quotes => exact Quotes.isOn_of_mem_findings found
    | brackets => cases SourceRule.reports_of_mem found; cases own
    | scales => cases SourceRule.reports_of_mem found; cases own
  · obtain ⟨rule, _, found⟩ := List.mem_flatMap.mp member
    cases SourceRule.reports_of_mem found with
    | quotes => exact absurd rfl other
    | brackets => exact ⟨rfl, rfl⟩
    | scales => exact ⟨rfl, rfl⟩

end Lint
end PatternLint
