import PatternLint.Proofs.JsonReports
import PatternLint.Report.Listing

/-!
# Colours

A text with colours is read as sequences that begin or end a style, and characters (`Style.pieces`). A style around a plain
text adds two sequences and leaves the terminal as it was (`Style.Shows`). So a listing in colours is the plain one with
sequences in it, and behind each of its parts all styles are closed (`ReportRecord.colors_exact`).
-/
namespace PatternLint

namespace Style

/-! ### Reading a text with styles -/

/-- The numbers of the sequences that begin or end a style. -/
def numbers : List Nat := [31, 33, 39, 1, 0]

/-- What a text with styles is made of. -/
inductive Piece where
  | sequence (number : Nat)
  | char (c : Char)
  deriving Repr, DecidableEq

/-- The number of the sequence that a text starts with. -/
def front? (text : Text) : Option Nat := numbers.find? fun number => (sequence number).isPrefixOf text

def pieces : Text → List Piece
  | [] => []
  | c :: text =>
    match front? (c :: text) with
    | some number => .sequence number :: pieces (text.drop ((sequence number).length - 1))
    | none => .char c :: pieces text
termination_by text => text.length
decreasing_by all_goals simp only [List.length_drop, List.length_cons]; omega

def Piece.plain : Piece → Text
  | sequence _ => []
  | char c => [c]

/-- A text without its sequences. -/
def erase (text : Text) : Text := (pieces text).flatMap Piece.plain

/-- The styles that a terminal writes in. -/
structure Terminal where
  color : Option Style := none
  bold : Bool := false
  deriving Repr, DecidableEq

namespace Terminal

def after (terminal : Terminal) : Piece → Terminal
  | .sequence 31 => { terminal with color := some .red }
  | .sequence 33 => { terminal with color := some .yellow }
  | .sequence 39 => { terminal with color := none }
  | .sequence 1 => { terminal with bold := true }
  | .sequence 0 => {}
  | _ => terminal

/-- The styles that are open behind a text. -/
def behind (text : Text) : Terminal := (pieces text).foldl after {}

end Terminal

variable {text colored plain : Text} {terminal : Terminal}

theorem pieces_sequence_append {number : Nat} (known : number ∈ numbers) (rest : Text) :
    pieces (sequence number ++ rest) = .sequence number :: pieces rest := by
  simp only [numbers, List.mem_cons, List.not_mem_nil, or_false] at known
  rcases known with rfl | rfl | rfl | rfl | rfl <;> rw [sequence, List.cons_append, List.cons_append, pieces] <;> rfl

theorem pieces_cons {c : Char} (own : c ≠ '\x1b') (rest : Text) : pieces (c :: rest) = .char c :: pieces rest := by
  have none : front? (c :: rest) = none := List.find?_eq_none.mpr fun number _ => by
    simp [sequence, own.symm]
  rw [pieces, none]

theorem pieces_append (own : '\x1b' ∉ text) (rest : Text) : pieces (text ++ rest) = text.map .char ++ pieces rest := by
  induction text with
  | nil => rfl
  | cons c text ih =>
    rw [List.mem_cons, not_or] at own
    rw [List.cons_append, pieces_cons (Ne.symm own.1), ih own.2]
    rfl

/-! ### Texts that leave the terminal as it is -/

/-- Whether a text is a plain one with sequences in it, behind which a terminal is as it was. -/
structure Shows (terminal : Terminal) (colored plain : Text) : Prop where
  free : '\x1b' ∉ plain
  reads : ∃ own, (∀ rest, pieces (colored ++ rest) = own ++ pieces rest) ∧ own.flatMap Piece.plain = plain ∧
    own.foldl Terminal.after terminal = terminal

theorem shows_self (own : '\x1b' ∉ text) (terminal : Terminal) : Shows terminal text text := by
  refine ⟨own, text.map .char, pieces_append own, ?_, ?_⟩
  · rw [List.flatMap_map]
    exact (List.flatMap_pure_eq_map id text).trans (List.map_id text)
  · rw [List.foldl_map]
    exact List.foldl_fixed' (fun _ => rfl) text

theorem Shows.append {more plainMore : Text} (first : Shows terminal colored plain)
    (second : Shows terminal more plainMore) : Shows terminal (colored ++ more) (plain ++ plainMore) := by
  obtain ⟨free, own, reads, shown, kept⟩ := first
  obtain ⟨freeLater, later, readsLater, shownLater, keptLater⟩ := second
  refine ⟨by simp [free, freeLater], own ++ later, fun rest => ?_, ?_, ?_⟩
  · rw [List.append_assoc, reads, readsLater, List.append_assoc]
  · rw [List.flatMap_append, shown, shownLater]
  · rw [List.foldl_append, kept, keptLater]

/-- A text between two sequences. -/
theorem Shows.between (first last : Nat) (opens : first ∈ numbers) (closes : last ∈ numbers)
    (inner : Shows (terminal.after (.sequence first)) colored plain)
    (back : (terminal.after (.sequence first)).after (.sequence last) = terminal) :
    Shows terminal (sequence first ++ colored ++ sequence last) plain := by
  obtain ⟨free, own, reads, shown, kept⟩ := inner
  refine ⟨free, .sequence first :: own ++ [.sequence last], fun rest => ?_, ?_, ?_⟩
  · rw [List.append_assoc, List.append_assoc, pieces_sequence_append opens, reads, pieces_sequence_append closes]
    simp
  · simp [List.flatMap_append, shown, Piece.plain]
  · rw [List.cons_append, List.foldl_cons, List.foldl_append, kept]
    exact back

theorem Shows.blank (shown : Shows terminal colored plain) : Shows terminal (' ' :: colored) (' ' :: plain) := by
  have space : Shows terminal [' '] [' '] := shows_self (by decide) terminal
  exact space.append shown

theorem shows_bold (inner : Shows { bold := true } colored plain) : Shows {} (bold.apply true colored) plain :=
  .between 1 0 (by decide) (by decide) inner rfl

theorem shows_severity (severity : Severity) (own : '\x1b' ∉ text) (closed : terminal.color = none) :
    Shows terminal (severity.style.apply true text) text := by
  have back : { terminal with color := none } = terminal := by rw [← closed]
  cases severity with
  | error => exact .between 31 39 (by decide) (by decide) (shows_self own _) back
  | warning => exact .between 33 39 (by decide) (by decide) (shows_self own _) back

theorem Shows.erase_eq (shown : Shows terminal colored plain) : erase colored = plain := by
  obtain ⟨_, own, reads, same, _⟩ := shown
  have whole := reads []
  rw [List.append_nil, pieces, List.append_nil] at whole
  rw [erase, whole, same]

theorem Shows.behind_eq (shown : Shows {} colored plain) : Terminal.behind colored = {} := by
  obtain ⟨_, own, reads, _, kept⟩ := shown
  have whole := reads []
  rw [List.append_nil, pieces, List.append_nil] at whole
  rw [Terminal.behind, whole, kept]

end Style

/-- The last text has no line break behind it. -/
theorem Text.unlines_concat (texts : List Text) (last : Text) :
    unlines (texts ++ [last]) = texts.flatMap (· ++ ['\n']) ++ last := by
  induction texts with
  | nil => exact unlines_singleton last
  | cons text texts ih =>
    cases texts with
    | nil => simp
    | cons next texts =>
      rw [List.cons_append, List.cons_append, unlines_cons_cons, ← List.cons_append, ih]
      simp

open Style

namespace Listing

/-! ### The parts of a listing -/

/-- The place of a diagnostic, as it is listed. -/
def place (row : Text × Diagnostic) : Text :=
  row.1 ++ ':' :: Text.ofNat row.2.line ++ ':' :: Text.ofNat row.2.column

def coloredIcon (row : Text × Diagnostic) : Text := row.2.severity.style.apply true row.2.severity.icon

def coloredTag (row : Text × Diagnostic) : Text := bold.apply true (row.2.severity.style.apply true row.2.severity.tag)

def coloredPlace (row : Text × Diagnostic) : Text := bold.apply true (place row)

/-- The line of a row, a name and a diagnostic. -/
def line (color : Bool) (row : Text × Diagnostic) : Text := diagnosticLine color row.1 row.2

/-- The lines of rows, with a line break behind each. -/
def rowLines (color : Bool) (rows : List (Text × Diagnostic)) : Text := rows.flatMap (line color · ++ ['\n'])

theorem line_true (row : Text × Diagnostic) : line true row =
    coloredIcon row ++ ' ' :: coloredTag row ++ ' ' :: coloredPlace row ++ " — ".toList ++ row.2.message := rfl

theorem line_false (row : Text × Diagnostic) : line false row =
    row.2.severity.icon ++ ' ' :: row.2.severity.tag ++ ' ' :: place row ++ " — ".toList ++ row.2.message := rfl

variable {row : Text × Diagnostic} {rows : List (Text × Diagnostic)}

/-- Whether there is no escape character in the name and the message of a row. -/
def IsPlain (row : Text × Diagnostic) : Prop := '\x1b' ∉ row.1 ∧ '\x1b' ∉ row.2.message

theorem not_mem_ofNat (n : Nat) : '\x1b' ∉ Text.ofNat n := fun member =>
  absurd (Text.isDigit_of_mem_ofNat member) (by decide)

theorem not_mem_place (own : IsPlain row) : '\x1b' ∉ place row := by simp [place, own.1, not_mem_ofNat]

theorem not_mem_tag (severity : Severity) : '\x1b' ∉ severity.tag := by cases severity <;> decide

theorem shows_icon (row : Text × Diagnostic) : Shows {} (coloredIcon row) row.2.severity.icon :=
  shows_severity row.2.severity (by cases row.2.severity <;> decide) rfl

theorem shows_tag (row : Text × Diagnostic) : Shows {} (coloredTag row) row.2.severity.tag :=
  shows_bold (shows_severity row.2.severity (not_mem_tag row.2.severity) rfl)

theorem shows_place (own : IsPlain row) : Shows {} (coloredPlace row) (place row) :=
  shows_bold (shows_self (not_mem_place own) _)

theorem shows_line (own : IsPlain row) : Shows {} (line true row) (line false row) := by
  rw [line_true, line_false]
  have dash : Shows {} " — ".toList " — ".toList := shows_self (by decide) {}
  exact ((((shows_icon row).append (shows_tag row).blank).append (shows_place own).blank).append dash).append
    (shows_self own.2 {})

/-- The beginnings of a line in colours that end behind its icon, its tag or its place. -/
inductive LinePart (row : Text × Diagnostic) : Text → Prop
  | icon : LinePart row (coloredIcon row)
  | tag : LinePart row (coloredIcon row ++ ' ' :: coloredTag row)
  | place : LinePart row (coloredIcon row ++ ' ' :: coloredTag row ++ ' ' :: coloredPlace row)

theorem LinePart.prefix_line {part : Text} (inLine : LinePart row part) : part <+: line true row := by
  have upToPlace : coloredIcon row ++ ' ' :: coloredTag row ++ ' ' :: coloredPlace row <+: line true row :=
    (List.prefix_append _ _).trans (List.prefix_append _ _)
  have upToTag : coloredIcon row ++ ' ' :: coloredTag row <+: line true row := (List.prefix_append _ _).trans upToPlace
  cases inLine with
  | icon => exact (List.prefix_append _ _).trans upToTag
  | tag => exact upToTag
  | place => exact upToPlace

theorem LinePart.exists_shows {part : Text} (inLine : LinePart row part) (own : IsPlain row) :
    ∃ plain, Shows {} part plain := by
  have upToTag := (shows_icon row).append (shows_tag row).blank
  cases inLine with
  | icon => exact ⟨_, shows_icon row⟩
  | tag => exact ⟨_, upToTag⟩
  | place => exact ⟨_, upToTag.append (shows_place own).blank⟩

theorem shows_rowLines (own : ∀ row ∈ rows, IsPlain row) : Shows {} (rowLines true rows) (rowLines false rows) := by
  induction rows with
  | nil => exact shows_self (List.not_mem_nil) {}
  | cons row rows ih =>
    obtain ⟨first, later⟩ := List.forall_mem_cons.mp own
    exact ((shows_line first).append (shows_self (by decide) {})).append (ih later)

theorem shows_summaryLine (summary : Summary) : Shows {} (summaryLine true summary) (summaryLine false summary) := by
  refine shows_bold (shows_self ?_ _)
  simp [not_mem_ofNat]

end Listing

open Listing

namespace ReportRecord

/-- The diagnostics of a report, each with the name of its file. -/
def rows (record : ReportRecord) : List (Text × Diagnostic) :=
  record.files.flatMap fun entry => entry.diagnostics.map (entry.file, ·)

/-- The listing of a report, one diagnostic a line, with the counts on the last line. -/
def listing (color : Bool) (record : ReportRecord) : Text :=
  Text.unlines (record.rows.map (line color) ++ [summaryLine color record.summary])

theorem ofReport_eq (color : Bool) (report : Report) : Listing.ofReport color report = listing color report.record := by
  have lines : (report.files.flatMap fun entry => entry.result.diagnostics.map (diagnosticLine color entry.file)) =
      report.record.rows.map (line color) := by
    simp [rows, Report.record, FileReport.record, List.flatMap_map, List.map_flatMap, Function.comp_def, line]
  rw [Listing.ofReport, lines, listing]
  rfl

theorem listing_eq (color : Bool) (record : ReportRecord) :
    listing color record = rowLines color record.rows ++ summaryLine color record.summary := by
  rw [listing, Text.unlines_concat, List.flatMap_map, rowLines]

variable {record : ReportRecord}

theorem isPlain_of_mem_rows (own : ∀ entry ∈ record.files, '\x1b' ∉ entry.file ∧
    ∀ diagnostic ∈ entry.diagnostics, '\x1b' ∉ diagnostic.message) {row : Text × Diagnostic} (listed : row ∈ record.rows) :
    IsPlain row := by
  obtain ⟨entry, inReport, paired⟩ := List.mem_flatMap.mp listed
  obtain ⟨diagnostic, inEntry, rfl⟩ := List.mem_map.mp paired
  exact ⟨(own entry inReport).1, (own entry inReport).2 diagnostic inEntry⟩

theorem prefix_listing {before after : List (Text × Diagnostic)} {row : Text × Diagnostic} {part : Text}
    (split : record.rows = before ++ row :: after) (inLine : LinePart row part) :
    rowLines true before ++ part <+: listing true record := by
  have lines : rowLines true record.rows = rowLines true before ++ (line true row ++ ['\n'] ++ rowLines true after) := by
    rw [split, rowLines, List.flatMap_append, List.flatMap_cons, rowLines, rowLines]
  rw [listing_eq, lines, List.append_assoc, List.prefix_append_right_inj, List.append_assoc, List.append_assoc]
  exact inLine.prefix_line.trans (List.prefix_append _ _)

/-- If no name and no message has an escape character, the listing of a report in colours without its sequences is the plain
    listing, in which nothing is left of them. Behind the icon, the tag and the place of each line, and behind the counts,
    no style is open. -/
theorem colors_exact (record : ReportRecord) (own : ∀ entry ∈ record.files, '\x1b' ∉ entry.file ∧
    ∀ diagnostic ∈ entry.diagnostics, '\x1b' ∉ diagnostic.message) :
    erase (record.listing true) = record.listing false ∧ '\x1b' ∉ record.listing false ∧
    (∀ before row after part, record.rows = before ++ row :: after → LinePart row part →
      rowLines true before ++ part <+: record.listing true ∧ Terminal.behind (rowLines true before ++ part) = {}) ∧
    Terminal.behind (record.listing true) = {} ∧
    ∀ report color, Report.record report = record → Listing.ofReport color report = record.listing color := by
  have plain : ∀ row ∈ record.rows, IsPlain row := fun row => isPlain_of_mem_rows own
  have whole : Shows {} (record.listing true) (record.listing false) := by
    rw [listing_eq, listing_eq]
    exact (shows_rowLines plain).append (shows_summaryLine record.summary)
  refine ⟨whole.erase_eq, whole.free, fun before row after part split inLine => ⟨prefix_listing split inLine, ?_⟩,
    whole.behind_eq, ?_⟩
  · have earlier : ∀ row ∈ before, IsPlain row := fun row member => plain row (by simp [split, member])
    obtain ⟨shown, part⟩ := inLine.exists_shows (plain row (by simp [split]))
    exact ((shows_rowLines earlier).append part).behind_eq
  · rintro report color rfl
    exact ofReport_eq color report

/-- A report with a name and a message that look like sequences without their first character, and counts of its own. -/
def bracketed : ReportRecord where
  files := [⟨"[1m".toList, true, [⟨1, 1, "[0m".toList, .warning⟩]⟩]
  summary := ⟨7, 0, 0⟩

theorem colors_exact_brackets : bracketed.rows = [("[1m".toList, ⟨1, 1, "[0m".toList, .warning⟩)] ∧
    erase (bracketed.listing true) = bracketed.listing false ∧
    Terminal.behind (coloredIcon ("[1m".toList, ⟨1, 1, "[0m".toList, .warning⟩)) = {} := by
  obtain ⟨erased, -, closed, -⟩ := colors_exact bracketed (by decide)
  exact ⟨rfl, erased, (closed [] _ [] _ rfl .icon).2⟩

end ReportRecord

end PatternLint
