import Mathlib.Data.List.InsertIdx
import PatternLint.Proofs.Comments
import PatternLint.Proofs.LineFindings

/-!
# Lines that hold nothing

A line that is blank or a comment, and holds no quote, can be put into a source and taken out of it. The line rules skip
it, the scan for open quotes passes over it in whatever state it is, and no bracket in it counts. So all that happens to
the findings, those on scales apart, is that the lines below get another number (`Lint.skipped_transparent`).
-/
namespace PatternLint

/-! ### Other numbers for lines -/

/-- The number of a line once another one has been put in behind the first `index` lines. -/
def lineDown (index number : Nat) : Nat := if number ≤ index then number else number + 1

/-- The number of a line once the one behind the first `index` lines has been taken out. -/
def lineUp (index number : Nat) : Nat := if number ≤ index then number else number - 1

theorem lineUp_lineDown (index number : Nat) : lineUp index (lineDown index number) = number := by
  unfold lineUp lineDown
  split_ifs <;> omega

def Line.renumbered (number : Nat → Nat) (line : Line) : Line := { line with number := number line.number }

/-- Whether a cause is found at a place of its own. Brackets and scales are matters of the source as a whole. -/
def Cause.hasPlace : Cause → Bool
  | unbalanced _ _ _ | differentScales _ | unreadable _ => false
  | _ => true

def Cause.isAboutScales : Cause → Bool
  | differentScales _ => true
  | _ => false

/-- The finding after its line has got another number. The wording follows where it names the line. -/
def Finding.renumbered (number : Nat → Nat) (finding : Finding) : Finding :=
  if finding.cause.hasPlace then { finding with line := number finding.line } else finding

theorem Finding.cause_renumbered (number : Nat → Nat) (finding : Finding) :
    (finding.renumbered number).cause = finding.cause := by
  unfold renumbered
  split <;> rfl

theorem Finding.renumbered_renumbered {first second : Nat → Nat} (back : ∀ number, second (first number) = number)
    (finding : Finding) : (finding.renumbered first).renumbered second = finding := by
  unfold renumbered
  by_cases placed : finding.cause.hasPlace = true
  · simp [placed, back]
  · simp [placed]

/-- A finding as it is told of a line of another number. Only an open quote names the line in words as well. -/
def Finding.toldOf (line : Nat) (finding : Finding) : Diagnostic where
  line := line
  column := finding.column
  message :=
    match finding.cause with
    | .unclosedQuote quote =>
      "Unclosed ".toList ++ quote.name ++ " quote (".toList ++ quote.char :: ") starting on line ".toList ++
        Text.ofNat line
    | _ => finding.message
  severity := finding.cause.severity

theorem Finding.diagnostic_renumbered (number : Nat → Nat) (finding : Finding) :
    (finding.renumbered number).diagnostic =
      if finding.cause.hasPlace then finding.toldOf (number finding.line) else finding.diagnostic := by
  obtain ⟨line, column, cause⟩ := finding
  cases cause <;> rfl

/-! ### One line more -/

theorem insertIdx_eq_take_drop {α : Type} {list : List α} {index : Nat} (inside : index ≤ list.length) (a : α) :
    list.insertIdx index a = list.take index ++ a :: list.drop index := by
  induction list generalizing index with
  | nil =>
    have first : index = 0 := by simpa using inside
    simp [first]
  | cons b list ih =>
    cases index with
    | zero => rfl
    | succ index => simp [ih (by simpa using inside)]

/-- A source with one line more, behind the first `index` ones. -/
def Text.insertLine (source : Text) (index : Nat) (line : Text) : Text := unlines (source.lines.insertIdx index line)

/-- A source without the line behind the first `index` ones. -/
def Text.eraseLine (source : Text) (index : Nat) : Text := unlines (source.lines.eraseIdx index)

section
variable {source text : Text} {index : Nat} (unbroken : '\n' ∉ text) (inside : index ≤ source.lines.length)
include unbroken inside

theorem Text.lines_insertLine : (source.insertLine index text).lines = source.lines.insertIdx index text := by
  refine lines_unlines_of_unbroken (fun none => ?_) fun line member => ?_
  · have length := List.length_insertIdx_of_le_length inside text
    rw [none] at length
    simp at length
  · rcases List.eq_or_mem_of_mem_insertIdx member with rfl | old
    · exact unbroken
    · exact not_mem_of_mem_lines old

/-- The line has its number, and the lines behind it are one further down. -/
theorem Line.ofSource_insertLine : ofSource (source.insertLine index text) =
    ((ofSource source).map (·.renumbered (lineDown index))).insertIdx index ⟨index + 1, text⟩ := by
  have count : ((ofSource source).map (·.renumbered (lineDown index))).length = source.lines.length := by
    simp [ofSource]
  rw [ofSource, Text.lines_insertLine unbroken inside]
  refine List.ext_getElem ?_ fun position _ _ => ?_
  · rw [List.length_mapIdx, List.length_insertIdx_of_le_length inside,
      List.length_insertIdx_of_le_length (count ▸ inside), count]
  · rw [List.getElem_mapIdx, List.getElem_insertIdx, List.getElem_insertIdx]
    by_cases before : position < index
    · have kept : position + 1 ≤ index := before
      simp [ofSource, renumbered, lineDown, before, kept]
    · by_cases here : position = index
      · simp [here]
      · have behind : ¬ position - 1 + 1 ≤ index := by omega
        simp only [ofSource, renumbered, lineDown, before, here, behind, dite_false, if_false, List.getElem_map,
          List.getElem_mapIdx]
        congr 1
        omega

end

/-! ### The line rules -/

theorem LineRule.hasPlace_of_mem {rule : LineRule} {line : Line} {finding : Finding}
    (member : finding ∈ rule.findings line) : finding.cause.hasPlace = true := by
  obtain ⟨before, reports, _⟩ := reports_of_mem member
  obtain ⟨number, column, cause⟩ := finding
  cases reports <;> rfl

/-- Another number for a line is another number for all that is found on it. -/
theorem Lint.lineFindings_renumbered (number : Nat → Nat) (line : Line) :
    lineFindings (line.renumbered number) = (lineFindings line).map (·.renumbered number) := by
  have same : (line.renumbered number).isSkipped = line.isSkipped := rfl
  rw [lineFindings, lineFindings, same]
  by_cases skipped : line.isSkipped = true
  · rw [if_pos skipped, if_pos skipped]
    rfl
  · rw [if_neg skipped, if_neg skipped, List.map_flatMap]
    refine List.flatMap_congr fun rule _ => ?_
    rw [Line.renumbered, LineRule.findings_number]
    refine List.map_congr_left fun finding member => ?_
    rw [Finding.renumbered, if_pos (LineRule.hasPlace_of_mem member), LineRule.line_of_mem member]

/-! ### Open quotes -/

namespace Quotes

def Place.renumbered (number : Nat → Nat) (place : Place) : Place := { place with line := number place.line }

def OpenQuotes.renumbered (number : Nat → Nat) (quotes : OpenQuotes) : OpenQuotes :=
  ⟨quotes.double.map (·.renumbered number), quotes.single.map (·.renumbered number),
    quotes.backtick.map (·.renumbered number)⟩

theorem get_renumbered (number : Nat → Nat) (quotes : OpenQuotes) (quote : Quote) :
    (quotes.renumbered number).get quote = (quotes.get quote).map (·.renumbered number) := by
  cases quote <;> rfl

theorem set_renumbered (number : Nat → Nat) (quotes : OpenQuotes) (place : Option Place) (quote : Quote) :
    (quotes.renumbered number).set (place.map (·.renumbered number)) quote =
      (quotes.set place quote).renumbered number := by
  cases quote <;> rfl

theorem toggle_renumbered (number : Nat → Nat) (quotes : OpenQuotes) (quote : Quote) (place : Place) :
    (quotes.renumbered number).toggle quote (place.renumbered number) =
      (quotes.toggle quote place).renumbered number := by
  have others : (quotes.renumbered number).otherOpen quote = quotes.otherOpen quote := by
    simp [OpenQuotes.otherOpen, get_renumbered]
  rw [OpenQuotes.toggle, OpenQuotes.toggle, others]
  by_cases inside : quotes.otherOpen quote = true
  · rw [if_pos inside, if_pos inside]
  · rw [if_neg inside, if_neg inside, ← set_renumbered, get_renumbered]
    cases quotes.get quote <;> rfl

/-- Other numbers for the lines go through the scan of a line. -/
theorem scanLine_renumbered (number : Nat → Nat) (line column : Nat) (hidden : Bool) (quotes : OpenQuotes) (text : Text) :
    scanLine (number line) column hidden (quotes.renumbered number) text =
      (scanLine line column hidden quotes text).renumbered number := by
  induction text generalizing column hidden quotes with
  | nil => cases hidden <;> rfl
  | cons c text ih =>
    cases hidden with
    | true => exact ih (column + 1) false quotes
    | false =>
      simp only [scanLine]
      by_cases backslash : c = '\\'
      · rw [if_pos backslash, if_pos backslash]
        exact ih (column + 1) true quotes
      · rw [if_neg backslash, if_neg backslash]
        cases Quote.ofChar? c with
        | none => exact ih (column + 1) false quotes
        | some quote =>
          have toggled : (quotes.renumbered number).toggle quote ⟨number line, column⟩ =
              (quotes.toggle quote ⟨line, column⟩).renumbered number :=
            toggle_renumbered number quotes quote ⟨line, column⟩
          dsimp only
          rw [toggled]
          exact ih (column + 1) false (quotes.toggle quote ⟨line, column⟩)

/-- The scan of a line behind those before it. -/
def scanNext (quotes : OpenQuotes) (line : Line) : OpenQuotes := scanLine line.number 1 false quotes line.text

/-- Other numbers for the lines go through the scan of all lines. -/
theorem foldl_scanNext_renumbered (number : Nat → Nat) (lines : List Line) (quotes : OpenQuotes) :
    (lines.map (·.renumbered number)).foldl scanNext (quotes.renumbered number) =
      (lines.foldl scanNext quotes).renumbered number := by
  induction lines generalizing quotes with
  | nil => rfl
  | cons line lines ih =>
    have first : scanNext (quotes.renumbered number) (line.renumbered number) =
        (scanNext quotes line).renumbered number := scanLine_renumbered number line.number 1 false quotes line.text
    rw [List.map_cons, List.foldl_cons, List.foldl_cons, first, ih]

/-- A text without quotes leaves the open quotes as they are, wherever it stands. -/
theorem scanLine_of_unquoted {text : Text} (unquoted : ∀ quote : Quote, quote.char ∉ text) (line column : Nat)
    (hidden : Bool) (quotes : OpenQuotes) : scanLine line column hidden quotes text = quotes := by
  induction text generalizing column hidden with
  | nil => cases hidden <;> rfl
  | cons c text ih =>
    have rest := ih fun quote member => unquoted quote (List.mem_cons_of_mem c member)
    cases hidden with
    | true => exact rest (column + 1) false
    | false =>
      have plain : Quote.ofChar? c = none := by
        cases kind : Quote.ofChar? c with
        | none => rfl
        | some quote => exact absurd (by simp [ofChar?_eq_some_iff.mp kind]) (unquoted quote)
      rw [scanLine, plain]
      by_cases backslash : c = '\\'
      · rw [if_pos backslash]
        exact rest (column + 1) true
      · rw [if_neg backslash]
        exact rest (column + 1) false

end Quotes

/-! ### A line that holds nothing -/

section
variable {source text : Text} {index : Nat} (unbroken : '\n' ∉ text) (inside : index ≤ source.lines.length)
include unbroken inside

theorem Lint.linePhase_insertLine (skipped : Skipped text) :
    linePhase (source.insertLine index text) = (linePhase source).map (·.renumbered (lineDown index)) := by
  have nothing : lineFindings ⟨index + 1, text⟩ = [] := if_pos ((isSkipped_iff ⟨index + 1, text⟩).mpr skipped)
  have length : ((Line.ofSource source).map (·.renumbered (lineDown index))).length = source.lines.length := by
    simp [Line.ofSource]
  rw [linePhase, Line.ofSource_insertLine unbroken inside, insertIdx_eq_take_drop (length ▸ inside), List.flatMap_append,
    List.flatMap_cons, nothing, List.nil_append, ← List.flatMap_append, List.take_append_drop, List.flatMap_map, linePhase,
    List.map_flatMap]
  exact List.flatMap_congr fun line _ => lineFindings_renumbered (lineDown index) line

theorem Quotes.openAtEnd_insertLine (unquoted : ∀ quote : Quote, quote.char ∉ text) :
    openAtEnd (source.insertLine index text) = (openAtEnd source).renumbered (lineDown index) := by
  have passed (quotes : OpenQuotes) : scanNext quotes ⟨index + 1, text⟩ = quotes :=
    scanLine_of_unquoted unquoted (index + 1) 1 false quotes
  have length : ((Line.ofSource source).map (·.renumbered (lineDown index))).length = source.lines.length := by
    simp [Line.ofSource]
  have folded (source : Text) : openAtEnd source = (Line.ofSource source).foldl scanNext {} := rfl
  rw [folded, folded, Line.ofSource_insertLine unbroken inside, insertIdx_eq_take_drop (length ▸ inside),
    List.foldl_append, List.foldl_cons, passed, ← List.foldl_append, List.take_append_drop]
  exact foldl_scanNext_renumbered (lineDown index) (Line.ofSource source) {}

theorem Quotes.findings_insertLine (unquoted : ∀ quote : Quote, quote.char ∉ text) :
    findings (source.insertLine index text) = (findings source).map (·.renumbered (lineDown index)) := by
  simp only [findings, openAtEnd_insertLine unbroken inside unquoted, get_renumbered, List.map_filterMap, Option.map_map]
  rfl

theorem Brackets.findings_insertLine (skipped : Skipped text) :
    findings (source.insertLine index text) = findings source := by
  -- the code of the line is blank, so it opens and closes nothing, wherever it is put
  have blank (bracket : Bracket) : excess bracket (beforeComment text) = 0 := by
    have absent {c : Char} (solid : isBlank c = false) : (beforeComment text).count c = 0 := by
      refine List.count_eq_zero.mpr fun member => ?_
      rw [isBlank_of_mem_beforeComment skipped member] at solid
      cases solid
    simp [excess, absent (isBlank_brackets bracket).1, absent (isBlank_brackets bracket).2]
  refine findings_congr fun bracket => ?_
  have whole : code source = ((source.lines.take index ++ source.lines.drop index).map beforeComment).flatten := by
    rw [List.take_append_drop, code]
  rw [whole, code, Text.lines_insertLine unbroken inside, insertIdx_eq_take_drop inside]
  simp only [List.map_append, List.map_cons, List.flatten_append, List.flatten_cons, excess_append, blank]
  omega

end

/-- Brackets are reported for the source as a whole, whatever the numbers of its lines. -/
theorem Brackets.map_renumbered_findings (number : Nat → Nat) (source : Text) :
    (findings source).map (·.renumbered number) = findings source := by
  refine (List.map_congr_left fun finding member => ?_).trans (List.map_id _)
  cases @SourceRule.reports_of_mem .brackets _ _ member
  rfl

namespace Lint

/-- The findings of a source but the one on its scales. -/
def unscaled (source : Text) : List Finding := (findings source).filter (!·.cause.isAboutScales)

theorem unscaled_eq (source : Text) :
    unscaled source = linePhase source ++ Quotes.findings source ++ Brackets.findings source := by
  have kept {findings : List Finding} (own : ∀ finding ∈ findings, finding.cause.isAboutScales = false) :
      findings.filter (!·.cause.isAboutScales) = findings :=
    List.filter_eq_self.mpr fun finding member => by simp [own finding member]
  have ofLines : ∀ finding ∈ linePhase source, finding.cause.isAboutScales = false := by
    intro finding member
    obtain ⟨line, _, found⟩ := List.mem_flatMap.mp member
    obtain ⟨rule, reported⟩ := exists_rule_of_mem found
    obtain ⟨before, reports, _⟩ := LineRule.reports_of_mem reported
    obtain ⟨number, column, cause⟩ := finding
    cases reports <;> rfl
  have ofQuotes : ∀ finding ∈ Quotes.findings source, finding.cause.isAboutScales = false := by
    intro finding member
    cases @SourceRule.reports_of_mem .quotes _ _ member
    rfl
  have ofBrackets : ∀ finding ∈ Brackets.findings source, finding.cause.isAboutScales = false := by
    intro finding member
    cases @SourceRule.reports_of_mem .brackets _ _ member
    rfl
  have ofScales : (Scales.findings source).filter (!·.cause.isAboutScales) = [] := by
    refine List.filter_eq_nil_iff.mpr fun finding member => ?_
    cases @SourceRule.reports_of_mem .scales _ _ member
    simp [Cause.isAboutScales]
  rw [unscaled, findings, sourcePhase]
  simp [SourceRule.all, SourceRule.findings, kept ofLines, kept ofQuotes, kept ofBrackets, ofScales]

theorem findings_eq_unscaled (source : Text) : findings source = unscaled source ++ Scales.findings source := by
  rw [findings, sourcePhase, unscaled_eq]
  simp [SourceRule.all, SourceRule.findings]

/-- Whether another source is told the same as a source, with other numbers for its lines and but for the scales. -/
structure Renumbered (number : Nat → Nat) (source other : Text) : Prop where
  ok : (check other).ok = (check source).ok
  /-- The findings are the same ones in the same order, each at its place in the other source. -/
  findings : unscaled other = (unscaled source).map (·.renumbered number)
  diagnostics : (check other).diagnostics =
    ((unscaled source).map fun finding =>
      if finding.cause.hasPlace then finding.toldOf (number finding.line) else finding.diagnostic) ++
      (Scales.findings other).map (·.diagnostic)

theorem harmless_findings_iff (source : Text) : Harmless (findings source) ↔ Harmless (unscaled source) := by
  rw [findings_eq_unscaled, harmless_append]
  exact and_iff_left (harmless_scales source)

theorem harmless_renumbered_iff (number : Nat → Nat) (findings : List Finding) :
    Harmless (findings.map (·.renumbered number)) ↔ Harmless findings := by
  simp [Harmless, Finding.cause_renumbered]

theorem renumbered_of_findings {number : Nat → Nat} {source other : Text}
    (same : unscaled other = (unscaled source).map (·.renumbered number)) : Renumbered number source other where
  ok := by
    rw [Bool.eq_iff_iff, ok_iff_harmless, ok_iff_harmless, harmless_findings_iff, harmless_findings_iff, same,
      harmless_renumbered_iff]
  findings := same
  diagnostics := by
    rw [check, findings_eq_unscaled, same, List.map_append, List.map_map]
    simp only [Function.comp_def, Finding.diagnostic_renumbered]

theorem Renumbered.symm {first second : Nat → Nat} (back : ∀ number, second (first number) = number)
    {source other : Text} (told : Renumbered first source other) : Renumbered second other source := by
  refine renumbered_of_findings ?_
  have undone : (·.renumbered second) ∘ (·.renumbered first) = (id : Finding → Finding) :=
    funext (Finding.renumbered_renumbered back)
  rw [told.findings, List.map_map, undone, List.map_id]

/-- A line that is blank or a comment and holds no quote can be put in anywhere: whether there are errors stays the same,
    and the findings but those on scales are the same ones, where those behind the line are one line further down. It can
    be taken out of a source with another line as well, and then they are one line further up. -/
theorem skipped_transparent (source text : Text) (unbroken : '\n' ∉ text) (skipped : Skipped text)
    (unquoted : ∀ quote : Quote, quote.char ∉ text) (index : Nat) :
    (index ≤ source.lines.length → Renumbered (lineDown index) source (source.insertLine index text)) ∧
    (2 ≤ source.lines.length → source.lines[index]? = some text →
      Renumbered (lineUp index) source (source.eraseLine index)) := by
  have inserted {source : Text} (inside : index ≤ source.lines.length) :
      Renumbered (lineDown index) source (source.insertLine index text) := by
    refine renumbered_of_findings ?_
    rw [unscaled_eq, unscaled_eq, linePhase_insertLine unbroken inside skipped,
      Quotes.findings_insertLine unbroken inside unquoted, Brackets.findings_insertLine unbroken inside skipped,
      List.map_append, List.map_append,
      Brackets.map_renumbered_findings]
  refine ⟨inserted, fun several there => ?_⟩
  obtain ⟨inside, at_place⟩ := List.getElem?_eq_some_iff.mp there
  have fewer : (source.eraseLine index).lines = source.lines.eraseIdx index := by
    refine Text.lines_unlines_of_unbroken (fun none => ?_) fun line member => ?_
    · have length := List.length_eraseIdx_of_lt inside
      rw [none] at length
      simp at length
      omega
    · exact Text.not_mem_of_mem_lines ((List.eraseIdx_sublist _ _).subset member)
  have back : (source.eraseLine index).insertLine index text = source := by
    rw [Text.insertLine, fewer, ← at_place, List.insertIdx_eraseIdx_getElem inside]
    exact Text.intercalate_splitOn '\n' source
  have within : index ≤ (source.eraseLine index).lines.length := by
    rw [fewer, List.length_eraseIdx_of_lt inside]
    omega
  have told := inserted within
  rw [back] at told
  exact told.symm (lineUp_lineDown index)

/-- A comment with a bracket goes into a literal over two lines, right behind a backslash, and out of it again. The quote
    that is open at the end is told of the line where it stands then. -/
theorem skipped_transparent_in_literal :
    '\n' ∉ " // (".toList ∧ Skipped " // (".toList ∧
    Text.insertLine "n(\x60c \\\ne\x60)\ns('bd".toList 1 " // (".toList =
      "n(\x60c \\\n // (\ne\x60)\ns('bd".toList ∧
    Renumbered (lineDown 1) "n(\x60c \\\ne\x60)\ns('bd".toList
      (Text.insertLine "n(\x60c \\\ne\x60)\ns('bd".toList 1 " // (".toList) ∧
    Renumbered (lineUp 1) "n(\x60c \\\n // (\ne\x60)\ns('bd".toList
      (Text.eraseLine "n(\x60c \\\n // (\ne\x60)\ns('bd".toList 1) ∧
    (check "n(\x60c \\\n // (\ne\x60)\ns('bd".toList).diagnostics =
      [⟨4, 3, "Unclosed single quote (') starting on line 4".toList, .error⟩,
        ⟨1, 1, "Unbalanced parentheses: missing 1 closing \")\"".toList, .error⟩] := by
  have unbroken : '\n' ∉ " // (".toList := by decide
  have skipped : Skipped " // (".toList := (isSkipped_iff ⟨1, _⟩).mp (by decide)
  have unquoted : ∀ quote : Quote, quote.char ∉ " // (".toList := fun quote => by cases quote <;> decide
  exact ⟨unbroken, skipped, by decide, (skipped_transparent _ _ unbroken skipped unquoted 1).1 (by decide),
    (skipped_transparent _ _ unbroken skipped unquoted 1).2 (by decide) (by decide), by decide +kernel⟩

end Lint
end PatternLint
