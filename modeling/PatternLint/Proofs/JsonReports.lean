import Mathlib.Data.List.Forall2
import PatternLint.OutputForm
import PatternLint.Proofs.JsonTexts
import PatternLint.Proofs.Text

/-!
# Reports read back from JSON

The text of a report is one of JSON, with blanks and escapes as the grammar allows them (`written_textAt`). So every
reader of JSON finds one and the same value in it, and this value holds all that the report shows: files, flags,
diagnostics and counts, in their order (`printed_exact`).
-/
namespace PatternLint

/-! ### Numbers and strings -/

theorem Text.eq_zero_of_head?_ofNat {n : Nat} (zero : (Text.ofNat n).head? = some '0') : n = 0 := by
  rw [Text.ofNat] at zero
  induction n using Nat.strongRecOn with
  | ind n ih =>
    rw [Nat.toDigits_eq_if (by decide)] at zero
    split at zero
    · next small =>
      clear ih
      revert n
      decide
    · next large =>
      rw [List.head?_append_of_ne_nil _ Nat.toDigits_ne_nil] at zero
      have := ih (n / 10) (by omega) zero
      omega

namespace Json

open Standard

theorem number_ofNat (n : Nat) : Number n (Text.ofNat n) := by
  have digits : Digits (Text.ofNat n) := ⟨Nat.toDigits_ne_nil, fun c member => Text.isDigit_of_mem_ofNat member⟩
  have lead : (Text.ofNat n).head? = some '0' → Text.ofNat n = ['0'] := by
    intro zero
    rw [Text.eq_zero_of_head?_ofNat zero]
    rfl
  have value : valueOf (Text.ofNat n) = n := Nat.ofDigitChars_toDigits (by decide) (by decide)
  have own := Number.mk .none (Whole.mk digits lead) .none .none
  rw [value] at own
  simpa using own

theorem hexValue?_hexDigit {n : Nat} (small : n < 16) : Text.hexValue? (hexDigit n) = some n := by
  revert n
  decide

theorem charOfCode?_toNat (c : Char) : Text.charOfCode? c.toNat = some c := by
  have valid : c.toNat.isValidChar := c.valid
  rw [Text.charOfCode?, if_pos valid, Char.ofNat_toNat]

/-- However a character is written, it is read as itself. -/
theorem spells_escape (c : Char) : Spells c (escape c) := by
  rw [escape]
  split_ifs with quotation backslash backspace formFeed newline carriage tab control
  · exact .short (by rw [quotation]; rfl)
  · exact .short (by rw [backslash]; rfl)
  · exact .short (by rw [backspace]; rfl)
  · exact .short (by rw [formFeed]; rfl)
  · exact .short (by rw [newline]; rfl)
  · exact .short (by rw [carriage]; rfl)
  · exact .short (by rw [tab]; rfl)
  · have high : Text.hexValue? (hexDigit (c.toNat / 16)) = some (c.toNat / 16) := hexValue?_hexDigit (by omega)
    have low : Text.hexValue? (hexDigit (c.toNat % 16)) = some (c.toNat % 16) := hexValue?_hexDigit (by omega)
    have zero : Text.hexValue? '0' = some 0 := rfl
    have code : code? ['0', '0', hexDigit (c.toNat / 16), hexDigit (c.toNat % 16)] = some c.toNat := by
      simp [code?, zero, high, low]
      omega
    exact .code code (charOfCode?_toNat c)
  · exact .plain quotation backslash (Nat.le_of_not_lt control)

theorem inQuotes_quote (text : Text) : InQuotes text (quote text) := by
  refine .mk ?_
  induction text with
  | nil => exact .nil
  | cons c text ih => exact .cons (spells_escape c) ih

/-! ### Values -/

mutual

/-- The value that is written. -/
def meaning : Json → Value
  | bool value => .bool value
  | nat value => .number value
  | string value => .string value
  | list items => .list (itemMeanings items)
  | object members => .object (memberMeanings members)

def itemMeanings : List Json → List Value
  | [] => []
  | item :: items => item.meaning :: itemMeanings items

def memberMeanings : List (Text × Json) → List (Text × Value)
  | [] => []
  | (name, value) :: members => (name, value.meaning) :: memberMeanings members

end

theorem spaces_nil : Spaces [] := fun _ member => (List.not_mem_nil member).elim

theorem spaces_newLine (level : Nat) : Spaces (newLine level) := by
  intro c member
  rcases List.mem_cons.mp member with rfl | blank
  · rfl
  · rw [List.eq_of_mem_replicate blank]
    rfl

section

variable {α : Type} (One : α → Text → Prop) (Row : List α → Text → Prop)
  (last : ∀ {element : α} {text : Text}, One element text → Row [element] text)
  (more : ∀ {element : α} {elements : List α} {text others : Text}, One element text → Row elements others →
    Row (element :: elements) (text ++ ',' :: others))

include last more

/-- Texts joined by a comma and a gap are a row, if each of them is an element between gaps. -/
theorem row_intercalate {gap behind : Text} {elements : List α} {texts : List Text} (some_text : texts ≠ [])
    (own : List.Forall₂ (fun element text => ∀ after, Spaces after → One element (gap ++ text ++ after)) elements texts)
    (spaces : Spaces behind) : Row elements (gap ++ List.intercalate (',' :: gap) texts ++ behind) := by
  induction own with
  | nil => exact absurd rfl some_text
  | @cons element text elements texts one others ih =>
    cases others with
    | nil =>
      rw [List.intercalate_singleton]
      exact last (one behind spaces)
    | cons =>
      have row := more (one [] spaces_nil) (ih (List.cons_ne_nil _ _))
      rw [List.intercalate_cons_cons]
      simpa only [List.append_assoc, List.nil_append, List.cons_append] using row

end

theorem written_items {level : Nat} {values : List Value} {texts : List Text}
    (own : List.Forall₂ (fun value text => Written (.value value) text) values texts) :
    Written (.value (.list values)) (block '[' ']' level texts) := by
  by_cases none : texts = []
  · subst none
    cases own
    exact .noItems spaces_nil
  · have between : List.Forall₂ (fun value text => ∀ after, Spaces after →
        Written (.item value) (newLine (level + 1) ++ text ++ after)) values texts :=
      own.imp fun value text written after spaces => .item (spaces_newLine _) written spaces
    have row := row_intercalate (Written <| .item ·) (Written <| .items ·) .lastItem .moreItems none between
      (spaces_newLine level)
    rw [block, if_neg (by simpa using none)]
    exact .list row

theorem written_members {level : Nat} {members : List (Text × Value)} {texts : List Text}
    (own : List.Forall₂ (fun member text => ∃ value, text = quote member.1 ++ ':' :: ' ' :: value ∧
      Written (.value member.2) value) members texts) :
    Written (.value (.object members)) (block '\x7b' '\x7d' level texts) := by
  by_cases none : texts = []
  · subst none
    cases own
    exact .noMembers spaces_nil
  · have between : List.Forall₂ (fun member text => ∀ after, Spaces after →
        Written (.member member.1 member.2) (newLine (level + 1) ++ text ++ after)) members texts := by
      refine own.imp ?_
      rintro member _ ⟨value, rfl, written⟩ after spaces
      have blank : Spaces [' '] := by simp [Spaces, isSpace]
      have whole := Written.member (spaces_newLine (level + 1)) (inQuotes_quote member.1) spaces_nil (.item blank written spaces)
      simpa only [List.append_assoc, List.append_nil, List.cons_append, List.nil_append] using whole
    have row := row_intercalate (fun member => Written (.member member.1 member.2)) (Written <| .members ·) .lastMember
      .moreMembers none between (spaces_newLine level)
    rw [block, if_neg (by simpa using none)]
    exact .object row

mutual

/-- What is written has its meaning for the grammar. -/
theorem written_textAt (level : Nat) : (value : Json) → Written (.value value.meaning) (textAt level value)
  | bool true => .word (by simp [words, meaning, textAt])
  | bool false => .word (by simp [words, meaning, textAt])
  | nat value => .number (number_ofNat value)
  | string value => .string (inQuotes_quote value)
  | list items => written_items (written_itemTexts (level + 1) items)
  | object members => written_members (written_memberTexts (level + 1) members)

theorem written_itemTexts (level : Nat) : (items : List Json) →
    List.Forall₂ (fun value text => Written (.value value) text) (itemMeanings items) (itemTexts level items)
  | [] => .nil
  | item :: items => .cons (written_textAt level item) (written_itemTexts level items)

theorem written_memberTexts (level : Nat) : (members : List (Text × Json)) →
    List.Forall₂ (fun member text => ∃ value, text = quote member.1 ++ ':' :: ' ' :: value ∧
      Written (.value member.2) value) (memberMeanings members) (memberTexts level members)
  | [] => .nil
  | (_, value) :: members => .cons ⟨_, rfl, written_textAt level value⟩ (written_memberTexts level members)

end

/-- A text that is written, with the line break behind it, has its meaning and no other. -/
theorem written_toText_iff {value : Json} {other : Value} :
    Written (.item other) (value.toText ++ ['\n']) ↔ other = value.meaning := by
  have own : Written (.item value.meaning) (value.toText ++ ['\n']) :=
    .item spaces_nil (written_textAt 0 value) (by simp [Spaces, isSpace])
  exact ⟨own.unique, fun same => same ▸ own⟩

end Json

/-! ### Reports -/

/-- What the entry of a file shows. The flag stands for itself, whether it agrees with the diagnostics or not. -/
structure FileRecord where
  file : Text
  ok : Bool
  diagnostics : List Diagnostic
  deriving Repr, DecidableEq

/-- What a report shows. The counts stand for themselves, whether they agree with the entries or not. -/
structure ReportRecord where
  files : List FileRecord
  summary : Summary
  deriving Repr, DecidableEq

def FileReport.record (entry : FileReport) : FileRecord := ⟨entry.file, entry.result.ok, entry.result.diagnostics⟩

def Report.record (report : Report) : ReportRecord := ⟨report.files.map (·.record), report.summary⟩

def FileRecord.json (entry : FileRecord) : Json :=
  .object [("file".toList, .string entry.file), ("ok".toList, .bool entry.ok),
    ("diagnostics".toList, .list (entry.diagnostics.map Json.ofDiagnostic))]

def ReportRecord.json (record : ReportRecord) : Json :=
  .object [("files".toList, .list (record.files.map (·.json))), ("summary".toList, Json.ofSummary record.summary)]

/-- What is written for a report in JSON. -/
def ReportRecord.printed (record : ReportRecord) : Text := record.json.toText ++ ['\n']

theorem Json.ofReport_eq (report : Report) : Json.ofReport report = report.record.json := by
  rw [ofReport, ReportRecord.json, Report.record, List.map_map]
  rfl

/-- A report can be told from what it shows. -/
theorem Report.record_injective : Function.Injective Report.record := by
  intro report other same
  have entries : Function.Injective FileReport.record := by
    rintro ⟨file, ⟨diagnostics⟩⟩ ⟨other, ⟨others⟩⟩ same
    obtain rfl : file = other := congrArg FileRecord.file same
    obtain rfl : diagnostics = others := congrArg FileRecord.diagnostics same
    rfl
  have files : report.files = other.files := entries.list_map (congrArg ReportRecord.files same)
  cases report
  cases other
  cases files
  rfl

/-! ### Reading a report -/

open Json.Standard

namespace Json.Standard.Value

/-- The member of an object with a name, the first one if there are several. -/
def get? (name : Text) : Value → Option Value
  | object members => members.lookup name
  | _ => none

def nat? : Value → Option Nat
  | number value => if value.den = 1 ∧ 0 ≤ value.num then some value.num.toNat else none
  | _ => none

def flag? : Value → Option Bool
  | bool value => some value
  | _ => none

def text? : Value → Option Text
  | string value => some value
  | _ => none

def items? : Value → Option (List Value)
  | list items => some items
  | _ => none

theorem nat?_number (n : Nat) : nat? (number n) = some n := by simp [nat?]

end Json.Standard.Value

def Diagnostic.ofValue? (value : Value) : Option Diagnostic := do
  let line ← value.get? "line".toList >>= Value.nat?
  let column ← value.get? "column".toList >>= Value.nat?
  let message ← value.get? "message".toList >>= Value.text?
  let severity ← value.get? "severity".toList >>= Value.text? >>= Severity.ofName?
  return ⟨line, column, message, severity⟩

def FileRecord.ofValue? (value : Value) : Option FileRecord := do
  let file ← value.get? "file".toList >>= Value.text?
  let ok ← value.get? "ok".toList >>= Value.flag?
  let diagnostics ← value.get? "diagnostics".toList >>= Value.items?
  return ⟨file, ok, ← diagnostics.mapM Diagnostic.ofValue?⟩

def Summary.ofValue? (value : Value) : Option Summary := do
  let errors ← value.get? "errors".toList >>= Value.nat?
  let warnings ← value.get? "warnings".toList >>= Value.nat?
  let files ← value.get? "files".toList >>= Value.nat?
  return ⟨errors, warnings, files⟩

def ReportRecord.ofValue? (value : Value) : Option ReportRecord := do
  let files ← value.get? "files".toList >>= Value.items?
  let summary ← value.get? "summary".toList >>= Summary.ofValue?
  return ⟨← files.mapM FileRecord.ofValue?, summary⟩

/-- Items that are each read back as what was written are read back as all that was written. -/
theorem mapM_itemMeanings {α : Type} {write : α → Json} {read : Value → Option α}
    (back : ∀ a, read (write a).meaning = some a) (list : List α) :
    (Json.itemMeanings (list.map write)).mapM read = some list := by
  induction list with
  | nil => rfl
  | cons a list ih =>
    rw [List.map_cons, Json.itemMeanings, List.mapM_cons, back, ih]
    rfl

theorem Severity.ofName?_name (severity : Severity) : ofName? severity.name = some severity := by
  cases severity <;> rfl

section

open Json Value

theorem Diagnostic.ofValue?_meaning (diagnostic : Diagnostic) :
    ofValue? (ofDiagnostic diagnostic).meaning = some diagnostic := by
  simp [ofValue?, ofDiagnostic, meaning, memberMeanings, get?, List.lookup_cons, nat?_number, text?,
    Severity.ofName?_name]

theorem FileRecord.ofValue?_meaning (entry : FileRecord) : ofValue? entry.json.meaning = some entry := by
  have diagnostics := mapM_itemMeanings Diagnostic.ofValue?_meaning entry.diagnostics
  simp [ofValue?, FileRecord.json, meaning, memberMeanings, get?, List.lookup_cons, text?, flag?, items?, diagnostics]

theorem Summary.ofValue?_meaning (summary : Summary) : ofValue? (ofSummary summary).meaning = some summary := by
  simp [ofValue?, ofSummary, meaning, memberMeanings, get?, List.lookup_cons, nat?_number]

theorem ReportRecord.ofValue?_meaning (record : ReportRecord) : ofValue? record.json.meaning = some record := by
  have files := mapM_itemMeanings FileRecord.ofValue?_meaning record.files
  simp [ofValue?, ReportRecord.json, meaning, memberMeanings, get?, List.lookup_cons, items?, files,
    Summary.ofValue?_meaning]

end

/-- What is written for a report in JSON has one value, the reader finds it, and all that the report shows can be read
    from it: the files in order, each with its name, flag and diagnostics in order, and the counts. So different reports
    are never written alike, nor are different records. -/
theorem ReportRecord.printed_exact :
    (∀ (report : Report) (color : Bool), OutputForm.json.report color report ++ ['\n'] = report.record.printed) ∧
    (∀ record : ReportRecord, ∃ value, (∀ other, Written (.item other) record.printed ↔ other = value) ∧
      parse? record.printed = some value ∧ ofValue? value = some record) ∧
    Function.Injective printed ∧
    ∀ color, Function.Injective (OutputForm.json.report color) := by
  have read (record : ReportRecord) : parse? record.printed = some record.json.meaning :=
    parse?_eq_some_iff.mpr (Json.written_toText_iff.mpr rfl)
  have same (report : Report) (color : Bool) :
      OutputForm.json.report color report ++ ['\n'] = report.record.printed := by
    rw [OutputForm.report, Json.ofReport_eq]
    rfl
  have distinct : Function.Injective printed := by
    intro record other alike
    have values : record.json.meaning = other.json.meaning := by
      have both := read record
      rw [alike, read other] at both
      exact (Option.some.inj both).symm
    have records := ofValue?_meaning record
    rw [values, ofValue?_meaning other] at records
    exact (Option.some.inj records).symm
  refine ⟨same, fun record => ⟨record.json.meaning, fun _ => Json.written_toText_iff, read record,
    ofValue?_meaning record⟩, distinct, fun color report other alike => ?_⟩
  have texts : report.record.printed = other.record.printed := by rw [← same report color, ← same other color, alike]
  exact Report.record_injective (distinct texts)

end PatternLint
