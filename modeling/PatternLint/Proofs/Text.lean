import Mathlib.Data.List.DropRight
import PatternLint.Line

/-!
# Cutting, joining and trimming texts

The lines of texts joined by line breaks are the lines of the texts (`lines_unlines`), and there is one line
more than there are line breaks (`length_lines`). A line is skipped exactly when it is empty or starts with a
comment mark once the blanks on both sides are gone (`isSkipped_iff`).
-/
namespace PatternLint

namespace Text

/-! ### Lines of joined texts -/

/-- Texts are cut as lists are. -/
theorem list_splitOn_eq (separator : Char) (text : Text) : List.splitOn separator text = splitOn separator text := by
  rw [List.splitOn_eq_splitOnP]
  induction text with
  | nil => simp
  | cons c text ih =>
    rw [List.splitOnP_cons_eq_if_modifyHead, ih, splitOn_cons]
    simp only [beq_iff_eq]
    split
    · rfl
    · cases pieces : splitOn separator text with
      | nil => exact absurd pieces (splitOn_ne_nil separator text)
      | cons word words => rfl

theorem onFirst_append (c : Char) {words : List Text} (some_word : words ≠ []) (more : List Text) :
    onFirst c (words ++ more) = onFirst c words ++ more := by
  cases words with
  | nil => exact absurd rfl some_word
  | cons word words => rfl

theorem splitOn_append (separator : Char) (a b : Text) :
    splitOn separator (a ++ separator :: b) = splitOn separator a ++ splitOn separator b := by
  induction a with
  | nil => simp [splitOn_cons]
  | cons c a ih =>
    rw [List.cons_append, splitOn_cons, splitOn_cons, ih]
    split
    · rfl
    · exact onFirst_append c (splitOn_ne_nil separator a) (splitOn separator b)

theorem intercalate_concat (separator : Char) {texts : List Text} (some_text : texts ≠ []) (last : Text) :
    List.intercalate [separator] (texts ++ [last]) = List.intercalate [separator] texts ++ separator :: last := by
  induction texts with
  | nil => exact absurd rfl some_text
  | cons text texts ih =>
    cases texts with
    | nil => simp [List.intercalate]
    | cons next texts =>
      have := ih (List.cons_ne_nil next texts)
      simpa [List.intercalate] using this

theorem lines_append_break (a b : Text) : lines (a ++ '\n' :: b) = lines a ++ lines b := splitOn_append '\n' a b

theorem not_mem_of_mem_lines {text line : Text} (member : line ∈ lines text) : '\n' ∉ line :=
  not_mem_of_mem_splitOn member

/-- Cutting a text loses nothing but separators. -/
theorem exists_mem_splitOn_iff {separator c : Char} (other : c ≠ separator) (text : Text) :
    (∃ word ∈ splitOn separator text, c ∈ word) ↔ c ∈ text := by
  induction text with
  | nil => simp
  | cons d text ih =>
    rw [splitOn_cons, List.mem_cons, ← ih]
    split
    · next same => simp [same, other]
    · cases pieces : splitOn separator text with
      | nil => exact absurd pieces (splitOn_ne_nil separator text)
      | cons word words => simp [onFirst, or_assoc]

theorem length_splitOn (separator : Char) (text : Text) :
    (splitOn separator text).length = text.count separator + 1 := by
  induction text with
  | nil => rfl
  | cons c text ih =>
    rw [splitOn_cons, List.count_cons]
    split
    · next same => simp [same, ih]
    · next other =>
      cases pieces : splitOn separator text with
      | nil => exact absurd pieces (splitOn_ne_nil separator text)
      | cons word words =>
        rw [pieces] at ih
        simpa [onFirst, other] using ih

theorem length_lines (text : Text) : (lines text).length = text.count '\n' + 1 := length_splitOn '\n' text

theorem splitOn_eq_singleton {separator : Char} {text : Text} (unbroken : separator ∉ text) :
    splitOn separator text = [text] := by
  have one : (splitOn separator text).length = 1 := by rw [length_splitOn, List.count_eq_zero.mpr unbroken]
  obtain ⟨word, only⟩ := List.length_eq_one_iff.mp one
  have back := intercalate_splitOn separator text
  rw [only] at back ⊢
  simpa [List.intercalate] using back

/-- The last piece of a text is the whole text or what stands behind its last separator. -/
theorem getLast?_splitOn_eq_some_iff {separator : Char} {last : Text} (free : separator ∉ last) (text : Text) :
    (splitOn separator text).getLast? = some last ↔ text = last ∨ separator :: last <:+ text := by
  constructor
  · intro ends
    obtain ⟨start, pieces⟩ := List.getLast?_eq_some_iff.mp ends
    have spelled := intercalate_splitOn separator text
    rw [pieces] at spelled
    by_cases none : start = []
    · exact .inl (by simpa [none, List.intercalate] using spelled.symm)
    · rw [intercalate_concat separator none] at spelled
      exact .inr ⟨_, spelled⟩
  · rintro (rfl | ⟨start, rfl⟩)
    · rw [splitOn_eq_singleton free, List.getLast?_singleton]
    · rw [splitOn_append, splitOn_eq_singleton free, List.getLast?_concat]

/-- The last piece of a text is empty if the text is or ends in a separator. -/
theorem getLast?_splitOn_eq_nil_iff (separator : Char) (text : Text) :
    (splitOn separator text).getLast? = some [] ↔ text = [] ∨ text.getLast? = some separator := by
  rw [getLast?_splitOn_eq_some_iff List.not_mem_nil, List.getLast?_eq_some_iff]
  simp only [List.IsSuffix, eq_comm]

theorem lines_eq_singleton {text : Text} (unbroken : '\n' ∉ text) : lines text = [text] :=
  splitOn_eq_singleton unbroken

/-- Joined texts have the pieces of the texts. -/
theorem splitOn_intercalate {separator : Char} {texts : List Text} (some_text : texts ≠ []) :
    splitOn separator (List.intercalate [separator] texts) = texts.flatMap (splitOn separator) := by
  induction texts with
  | nil => exact absurd rfl some_text
  | cons text texts ih =>
    cases texts with
    | nil => simp [List.intercalate]
    | cons next texts =>
      have joined : List.intercalate [separator] (text :: next :: texts) =
          text ++ separator :: List.intercalate [separator] (next :: texts) := by
        simp [List.intercalate]
      rw [joined, splitOn_append, ih (List.cons_ne_nil next texts)]
      exact List.flatMap_cons.symm

@[simp] theorem unlines_singleton (text : Text) : unlines [text] = text := by simp [unlines, List.intercalate]

@[simp] theorem unlines_cons_cons (text next : Text) (texts : List Text) :
    unlines (text :: next :: texts) = text ++ '\n' :: unlines (next :: texts) := by
  simp [unlines, List.intercalate]

/-- Joined texts have the lines of the texts. -/
theorem lines_unlines {texts : List Text} (some_text : texts ≠ []) : lines (unlines texts) = texts.flatMap lines :=
  splitOn_intercalate some_text

/-- Joined lines are the lines again. -/
theorem lines_unlines_of_unbroken {lines : List Text} (some_line : lines ≠ []) (unbroken : ∀ line ∈ lines, '\n' ∉ line) :
    (unlines lines).lines = lines := by
  have single : ∀ line ∈ lines, line.lines = [line] := fun line member => lines_eq_singleton (unbroken line member)
  rw [lines_unlines some_line, List.flatMap_congr single]
  exact (List.flatMap_pure_eq_map _ _).trans (List.map_id _)

/-- The lines of a text hold its characters but the line breaks, in their order. -/
theorem flatten_lines_sublist (text : Text) : text.lines.flatten.Sublist text := by
  induction text with
  | nil => exact List.Sublist.refl _
  | cons c text ih =>
    rw [lines, splitOn_cons]
    split
    · exact ih.cons c
    · cases pieces : splitOn '\n' text with
      | nil => exact absurd pieces (splitOn_ne_nil '\n' text)
      | cons word words =>
        rw [lines, pieces] at ih
        exact ih.cons_cons c

theorem isDigit_of_mem_ofNat {n : Nat} {c : Char} (member : c ∈ ofNat n) : c.isDigit = true :=
  Nat.isDigit_of_mem_toDigits (by decide) (by decide) member

/-! ### Runs at the front -/

/-- A run ends where a character does not belong to it. -/
theorem takeWhile_append_of_stop {p : Char → Bool} {text rest : Text} (own : ∀ c ∈ text, p c = true)
    (stop : ∀ c ∈ rest.head?, p c = false) :
    (text ++ rest).takeWhile p = text ∧ (text ++ rest).dropWhile p = rest := by
  rw [List.takeWhile_append_of_pos own, List.dropWhile_append_of_pos own]
  cases rest with
  | nil => simp
  | cons c rest => simp [stop c rfl]

/-! ### Trimming -/

/-- A text without the blanks at its start and at its end. -/
def trim (text : Text) : Text := text.trimLeft.rdropWhile isBlank

theorem trimLeft_append {gap : Text} (blank : ∀ c ∈ gap, isBlank c = true) (text : Text) :
    trimLeft (gap ++ text) = text.trimLeft := by
  simp only [trimLeft]
  exact List.dropWhile_append_of_pos blank

theorem trimLeft_cons {c : Char} (solid : isBlank c = false) (text : Text) : trimLeft (c :: text) = c :: text := by
  simp [trimLeft, solid]

/-- Trimming stops at the first character that is no blank. -/
theorem trimLeft_eq_cons_iff {c : Char} (solid : isBlank c = false) {text rest : Text} :
    text.trimLeft = c :: rest ↔ ∃ gap, (∀ d ∈ gap, isBlank d = true) ∧ text = gap ++ c :: rest := by
  constructor
  · intro trimmed
    refine ⟨text.takeWhile isBlank, fun d member => List.mem_takeWhile_imp member, ?_⟩
    rw [← trimmed]
    exact (List.takeWhile_append_dropWhile).symm
  · rintro ⟨gap, blank, rfl⟩
    rw [trimLeft_append blank, trimLeft_cons solid]

theorem not_isBlank_of_trimLeft {text rest : Text} {c : Char} (trimmed : text.trimLeft = c :: rest) :
    isBlank c = false := by
  have := List.head?_dropWhile_not isBlank text
  rw [show text.dropWhile isBlank = c :: rest from trimmed] at this
  simpa using this

theorem trim_eq_nil_iff (text : Text) : text.trim = [] ↔ text.trimLeft = [] := by
  constructor
  · intro none_left
    have blank : ∀ c ∈ text.trimLeft, isBlank c = true := List.rdropWhile_eq_nil_iff.mp none_left
    cases trimmed : text.trimLeft with
    | nil => rfl
    | cons c rest =>
      have solid := not_isBlank_of_trimLeft trimmed
      rw [blank c (by simp [trimmed])] at solid
      cases solid
  · intro none_left
    simp [trim, none_left]

/-- Trimming the end keeps what ends with no blank. -/
theorem prefix_rdropWhile {start text : Text} {last : Char} (solid : isBlank last = false)
    (starts : start ++ [last] <+: text) : start ++ [last] <+: text.rdropWhile isBlank := by
  obtain ⟨rest, rfl⟩ := starts
  have turned : (start ++ [last] ++ rest).reverse = rest.reverse ++ (start ++ [last]).reverse := List.reverse_append
  rw [List.rdropWhile, ← List.reverse_suffix, List.reverse_reverse, turned, List.dropWhile_append]
  split
  · simp [solid]
  · exact List.suffix_append _ _

theorem prefix_trim_iff (start text : Text) {last : Char} (solid : isBlank last = false) :
    start ++ [last] <+: text.trim ↔ start ++ [last] <+: text.trimLeft := by
  constructor
  · intro starts
    exact starts.trans (List.rdropWhile_prefix isBlank text.trimLeft)
  · exact prefix_rdropWhile solid

end Text

/-! ### Skipped lines -/

/-- The text of a line that holds nothing but blanks or a comment. -/
def Skipped (text : Text) : Prop := text.trim = [] ∨ commentMark <+: text.trim

theorem isSkipped_iff (line : Line) : line.isSkipped = true ↔ Skipped line.text := by
  have mark : commentMark <+: line.text.trim ↔ commentMark <+: line.text.trimLeft :=
    Text.prefix_trim_iff ['/'] line.text (by decide)
  simp [Line.isSkipped, Skipped, Text.trim_eq_nil_iff, mark]

theorem map_text_ofSource (source : Text) : (Line.ofSource source).map (·.text) = source.lines := by
  exact List.ext_getElem (by simp [Line.ofSource]) (by simp [Line.ofSource])

theorem text_mem_lines {source : Text} {line : Line} (member : line ∈ Line.ofSource source) :
    line.text ∈ source.lines := by
  rw [← map_text_ofSource]
  exact List.mem_map_of_mem member

/-- A property of the text of a line holds on all lines of a source or of all its texts between line breaks. -/
theorem forall_ofSource_iff (source : Text) (property : Text → Prop) :
    (∀ line ∈ Line.ofSource source, property line.text) ↔ ∀ text ∈ source.lines, property text := by
  rw [← map_text_ofSource, List.forall_mem_map]

end PatternLint
