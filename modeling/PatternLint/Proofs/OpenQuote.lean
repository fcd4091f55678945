import PatternLint.Proofs.SkippedLines

/-!
# The quote that is left open

At every point of the scan its slots are those of a state with a single open quote (`Quotes.agrees_at`). A quote is left
open where it stands, not hidden, behind a text in which all literals are complete, and does not occur again behind it;
no other quote is reported (`Quotes.current_eq_some_iff`). So a text without open quotes only moves down what is reported
on the text below it (`Quotes.findings_append_break`).
-/
namespace PatternLint

/-! ### Lines of a text and of what is put behind it -/

namespace Text

/-- The last line, behind which a text goes on. -/
def lastLine (text : Text) : Text := text.lines.getLastD []

theorem lines_ne_nil (text : Text) : text.lines ≠ [] := splitOn_ne_nil '\n' text

theorem lines_cons (c : Char) (text : Text) :
    lines (c :: text) = if c = '\n' then [] :: text.lines else onFirst c text.lines := splitOn_cons '\n' c text

/-- The first line of what is put behind a text goes on with its last line. -/
theorem lines_append (a b : Text) {first : Text} {more : List Text} (behind : b.lines = first :: more) :
    lines (a ++ b) = a.lines.dropLast ++ (a.lastLine ++ first) :: more := by
  induction a with
  | nil => exact behind
  | cons c a ih =>
    rw [List.cons_append, lines_cons, ih]
    obtain ⟨line, later, own⟩ := List.exists_cons_of_ne_nil (lines_ne_nil a)
    cases later <;> simp only [lastLine, lines_cons, own] <;> split <;> simp [onFirst]

theorem unlines_concat_append (texts : List Text) (start rest : Text) :
    unlines (texts ++ [start ++ rest]) = unlines (texts ++ [start]) ++ rest := by
  induction texts with
  | nil => simp
  | cons text texts ih =>
    cases texts with
    | nil => simp
    | cons next texts => simpa using ih

theorem lines_concat {c : Char} (noBreak : c ≠ '\n') (text : Text) :
    lines (text ++ [c]) = text.lines.dropLast ++ [text.lastLine ++ [c]] :=
  lines_append text [c] (lines_eq_singleton (by simpa using noBreak.symm))

end Text

namespace Quotes

/-! ### Places -/

/-- The place behind a text. -/
def Place.behind (text : Text) : Place := ⟨text.lines.length, text.lastLine.length + 1⟩

theorem behind_break (text : Text) : Place.behind (text ++ ['\n']) = ⟨(Place.behind text).line + 1, 1⟩ := by
  have lines : (text ++ ['\n']).lines = text.lines ++ [[]] := Text.lines_append_break text []
  simp [Place.behind, Text.lastLine, lines]

theorem behind_concat {c : Char} (noBreak : c ≠ '\n') (text : Text) :
    Place.behind (text ++ [c]) = ⟨(Place.behind text).line, (Place.behind text).column + 1⟩ := by
  have lines := Text.lines_concat noBreak text
  have count : (text ++ [c]).lines.length = text.lines.length := by
    have positive := List.length_pos_iff.mpr (Text.lines_ne_nil text)
    rw [lines, List.length_append, List.length_dropLast, List.length_singleton]
    omega
  have last : (text ++ [c]).lastLine = text.lastLine ++ [c] := by simp [Text.lastLine, lines]
  rw [Place.behind, Place.behind, count, last, List.length_append]
  rfl

/-- The character of a source at a place. -/
def charAt? (source : Text) (place : Place) : Option Char :=
  source.lines[place.line - 1]?.bind fun text => text[place.column - 1]?

/-- Behind a text stands the next character. -/
theorem charAt?_behind {c : Char} (noBreak : c ≠ '\n') (before after : Text) :
    charAt? (before ++ c :: after) (Place.behind before) = some c := by
  obtain ⟨first, more, own⟩ := List.exists_cons_of_ne_nil (Text.lines_ne_nil after)
  have behind : Text.lines (c :: after) = (c :: first) :: more := by
    rw [Text.lines_cons, if_neg noBreak, own]
    rfl
  have count : before.lines.length - 1 = before.lines.dropLast.length := List.length_dropLast.symm
  rw [charAt?, Text.lines_append before _ behind, Place.behind, count]
  simp

/-! ### Steps of the scan -/

theorem place_step {state : ScanState} {c : Char} (text : Text) (placed : state.place = Place.behind text) :
    (state.step c).place = Place.behind (text ++ [c]) := by
  rw [ScanState.step, placed]
  by_cases lineBreak : c = '\n'
  · rw [if_pos lineBreak, lineBreak, behind_break]
  · rw [if_neg lineBreak, behind_concat lineBreak]
    split <;> rfl

/-- A quote is open behind a character that counts if it was open before and is not closed, or is opened there. -/
theorem meet_eq_some_iff {current : Option (Quote × Place)} {place start : Place} {c : Char} {quote : Quote} :
    meet current place c = some (quote, start) ↔
      current = some (quote, start) ∧ c ≠ quote.char ∨ current = none ∧ c = quote.char ∧ start = place := by
  cases current with
  | none =>
    simp only [meet, Option.map_eq_some_iff, ofChar?_eq_some_iff]
    simp [eq_comm]
  | some opened =>
    obtain ⟨own, there⟩ := opened
    rw [meet]
    split
    · next closes =>
      simp only [reduceCtorEq, false_and, or_false, false_iff, Option.some.injEq, Prod.mk.injEq, not_and, not_not]
      rintro ⟨rfl, _⟩
      exact closes
    · next stays =>
      simp only [reduceCtorEq, false_and, or_false, Option.some.injEq, Prod.mk.injEq]
      constructor
      · rintro ⟨rfl, rfl⟩
        exact ⟨⟨rfl, rfl⟩, stays⟩
      · exact And.left

/-! ### The scan of a text -/

theorem scan_place (text : Text) : (scan .start text).place = Place.behind text := by
  induction text using List.reverseRecOn with
  | nil => rfl
  | append_singleton text c ih =>
    rw [scan_append]
    exact place_step text ih

/-- An open quote stays open as long as it is not met again. -/
theorem current_of_absent {state : ScanState} {quote : Quote} {start : Place} (opened : state.current = some (quote, start))
    {text : Text} (absent : quote.char ∉ visibleFrom state.hidden text) :
    (scan state text).current = some (quote, start) := by
  induction text generalizing state with
  | nil => exact opened
  | cons c text ih =>
    rw [scan_cons]
    by_cases sees : state.Sees c
    · rw [visibleFrom_of_sees sees, List.mem_cons, not_or] at absent
      refine ih ?_ absent.2
      rw [current_of_sees sees, meet_eq_some_iff]
      exact .inl ⟨opened, Ne.symm absent.1⟩
    · rw [visibleFrom_of_not_sees sees] at absent
      exact ih ((current_of_not_sees sees).trans opened) absent

/-- A quote that is open behind a text was open before it, or is opened in it where no quote is open; either way it is
    not met again. -/
theorem opened_of_current {state : ScanState} {text : Text} {quote : Quote} {start : Place}
    (opened : (scan state text).current = some (quote, start)) :
    state.current = some (quote, start) ∧ quote.char ∉ visibleFrom state.hidden text ∨
    ∃ before after, text = before ++ quote.char :: after ∧ (scan state before).Sees quote.char ∧
      (scan state before).current = none ∧ start = (scan state before).place ∧ quote.char ∉ visible after := by
  induction text generalizing state with
  | nil => exact .inl ⟨opened, List.not_mem_nil⟩
  | cons c text ih =>
    rcases ih opened with ⟨already, absent⟩ | ⟨before, after, rfl, sees, closed, placed, absent⟩
    · by_cases sees : state.Sees c
      · rw [current_of_sees sees, meet_eq_some_iff] at already
        rw [visibleFrom_of_sees sees]
        rcases already with ⟨already, other⟩ | ⟨closed, rfl, placed⟩
        · exact .inl ⟨already, by simp [absent, Ne.symm other]⟩
        · rw [hidden_of_sees sees] at absent
          exact .inr ⟨[], text, rfl, sees, closed, placed, absent⟩
      · rw [visibleFrom_of_not_sees sees]
        exact .inl ⟨(current_of_not_sees sees).symm.trans already, absent⟩
    · exact .inr ⟨c :: before, after, rfl, sees, closed, placed, absent⟩

/-! ### The quote that is left open -/

theorem findings_eq_nil_iff_current (source : Text) : findings source = [] ↔ (scan .start source).current = none := by
  rw [findings_eq]
  split <;> simp_all

theorem char_plain (quote : Quote) : quote.char ≠ '\n' ∧ quote.char ≠ '\\' := by cases quote <;> decide

/-- A quote counts behind a text if it does not get hidden when it is put there. -/
theorem sees_iff (before : Text) (quote : Quote) : (scan .start before).Sees quote.char ↔
    visible (before ++ [quote.char]) = visible before ++ [quote.char] := by
  obtain ⟨noBreak, noEscape⟩ := char_plain quote
  have joined := visibleFrom_append .start before [quote.char]
  rw [show visible (before ++ [quote.char]) = _ from joined, show visibleFrom ScanState.start.hidden before = visible before
    from rfl, List.append_cancel_left_eq, ScanState.Sees, or_iff_right noBreak, and_iff_left noEscape]
  cases (scan .start before).hidden <;> simp [visibleFrom, noBreak, noEscape]

/-- A quote of a source that is left open: all literals before it are complete, it is not hidden, and it is not met
    again behind it. -/
structure LeftOpen (source : Text) (quote : Quote) (before after : Text) : Prop where
  parts : source = before ++ quote.char :: after
  complete : findings before = []
  unhidden : visible (before ++ [quote.char]) = visible before ++ [quote.char]
  absent : quote.char ∉ visible after

/-- The scan ends with the quote that is left open. -/
theorem current_eq_some_iff {source : Text} {quote : Quote} {place : Place} :
    (scan .start source).current = some (quote, place) ↔
      ∃ before after, LeftOpen source quote before after ∧ place = Place.behind before := by
  constructor
  · intro opened
    rcases opened_of_current opened with ⟨already, _⟩ | ⟨before, after, parts, sees, closed, placed, absent⟩
    · cases already
    · exact ⟨before, after, ⟨parts, (findings_eq_nil_iff_current before).mpr closed, (sees_iff before quote).mp sees, absent⟩,
        placed.trans (scan_place before)⟩
  · rintro ⟨before, after, ⟨parts, complete, unhidden, absent⟩, rfl⟩
    have sees := (sees_iff before quote).mpr unhidden
    have opens : ((scan .start before).step quote.char).current = some (quote, Place.behind before) := by
      rw [current_of_sees sees, meet_eq_some_iff]
      exact .inr ⟨(findings_eq_nil_iff_current before).mp complete, rfl, (scan_place before).symm⟩
    rw [parts, scan_append, scan_cons]
    exact current_of_absent opens (by rw [hidden_of_sees sees]; exact absent)

/-! ### Points of the scan -/

/-- Whether at most one kind of quote is open. -/
def OpenQuotes.AtMostOne (quotes : OpenQuotes) : Prop :=
  ∀ a b, (quotes.get a).isSome → (quotes.get b).isSome → a = b

theorem atMostOne_slots (current : Option (Quote × Place)) : (slots current).AtMostOne := by
  intro a b
  cases current with
  | none => cases a <;> simp [slots, OpenQuotes.get]
  | some opened =>
    obtain ⟨quote, place⟩ := opened
    cases quote <;> cases a <;> cases b <;> simp [slots, OpenQuotes.set, OpenQuotes.get]

/-- The slots at a point of the scan: behind some lines and the start of the next one. -/
def slotsAt (lines : List Line) (line : Line) (start : Text) : OpenQuotes :=
  scanLine line.number 1 false (lines.foldl scanNext {}) start

/-- The part of a source up to such a point. -/
def partBefore (lines : List Line) (start : Text) : Text := Text.unlines (lines.map (·.text) ++ [start])

section
variable {source : Text} {lines later : List Line} {line : Line} {start rest : Text}

theorem text_unbroken {source : Text} {line : Line} (member : line ∈ Line.ofSource source) : '\n' ∉ line.text :=
  Text.not_mem_of_mem_lines (text_mem_lines member)

variable (split : Line.ofSource source = lines ++ line :: later) (within : line.text = start ++ rest)
include split within

theorem lines_partBefore : (partBefore lines start).lines = lines.map (·.text) ++ [start] := by
  refine Text.lines_unlines_of_unbroken (by simp) fun text member => ?_
  rcases List.mem_append.mp member with old | new
  · obtain ⟨other, listed, rfl⟩ := List.mem_map.mp old
    exact text_unbroken (split ▸ List.mem_append_left _ listed)
  · obtain rfl := List.mem_singleton.mp new
    have whole : '\n' ∉ line.text := text_unbroken (split ▸ List.mem_append_right _ List.mem_cons_self)
    rw [within] at whole
    exact fun inside => whole (List.mem_append_left _ inside)

omit within in
theorem number_eq : line.number = lines.length + 1 := by
  have inside : lines.length < (Line.ofSource source).length := by simp [split]
  rw [← Line.number_getElem inside]
  simp [split]

/-- The part before a point has the lines of the source, and of the last one the start. -/
theorem ofSource_partBefore : Line.ofSource (partBefore lines start) = lines ++ [⟨line.number, start⟩] := by
  have count : lines.length < (Line.ofSource source).length := by simp [split]
  rw [Line.ofSource, lines_partBefore split within, List.mapIdx_concat, number_eq split, List.length_map]
  congr 1
  refine List.ext_getElem (by simp) fun index inside below => ?_
  have own : (Line.ofSource source)[index]? = some lines[index] := by
    rw [split, List.getElem?_append_left below, List.getElem?_eq_getElem below]
  obtain ⟨_, same⟩ := List.getElem?_eq_some_iff.mp own
  rw [List.getElem_mapIdx, List.getElem_map, ← same, ← Line.number_getElem (Nat.lt_trans below count)]

theorem slotsAt_eq : slotsAt lines line start = slots (scan .start (partBefore lines start)).current := by
  rw [← openAtEnd_eq, openAtEnd, ofSource_partBefore split within, List.foldl_append]
  rfl

theorem place_partBefore : (scan .start (partBefore lines start)).place = ⟨line.number, start.length + 1⟩ := by
  rw [scan_place, Place.behind, Text.lastLine, lines_partBefore split within, number_eq split]
  simp

/-- The scan goes on from a point with the slots that it has there. -/
theorem openAtEnd_eq_foldl : openAtEnd source = later.foldl scanNext
    (scanLine line.number (start.length + 1) (scan .start (partBefore lines start)).hidden
      (slotsAt lines line start) rest) := by
  have unbroken : '\n' ∉ rest := by
    have whole : '\n' ∉ line.text := text_unbroken (split ▸ List.mem_append_right _ List.mem_cons_self)
    rw [within] at whole
    exact fun inside => whole (List.mem_append_right _ inside)
  have wholeLine : slotsAt lines line line.text = scanNext (lines.foldl scanNext {}) line := rfl
  have goesOn : partBefore lines line.text = partBefore lines start ++ rest := by
    rw [partBefore, within, Text.unlines_concat_append, partBefore]
  have onLine := scanLine_slots line.number unbroken (start.length + 1) (scan .start (partBefore lines start)).hidden
    (scan .start (partBefore lines start)).current
  rw [← place_partBefore split within] at onLine
  rw [slotsAt_eq split within, onLine, ← scan_append, ← goesOn, ← slotsAt_eq split (List.append_nil _).symm, wholeLine,
    ← List.foldl_cons, ← List.foldl_append, ← split]
  rfl

end

/-- At a point of the scan, behind some lines and the start of the next one, the slots are those of the single open quote
    and at most one is open. The scan goes on from them through the rest of the line and the later lines. -/
structure AgreesAt (source : Text) (lines : List Line) (line : Line) (later : List Line) (start rest : Text) : Prop where
  slots : slotsAt lines line start = slots (scan .start (partBefore lines start)).current
  atMostOne : (slotsAt lines line start).AtMostOne
  onward : openAtEnd source = later.foldl scanNext
    (scanLine line.number (start.length + 1) (scan .start (partBefore lines start)).hidden
      (slotsAt lines line start) rest)

theorem agrees_at {source : Text} {lines later : List Line} {line : Line} {start rest : Text}
    (split : Line.ofSource source = lines ++ line :: later) (within : line.text = start ++ rest) :
    AgreesAt source lines line later start rest where
  slots := slotsAt_eq split within
  atMostOne := slotsAt_eq split within ▸ atMostOne_slots _
  onward := openAtEnd_eq_foldl split within

/-! ### A text below another -/

/-- Below a text without open quotes the same is reported as without it, as many lines further down as it has. -/
theorem findings_append_break {a : Text} (complete : findings a = []) (b : Text) :
    findings (a ++ '\n' :: b) = (findings b).map (·.moved a.lines.length) := by
  have closed : openAtEnd a = OpenQuotes.renumbered (· + a.lines.length) {} := by
    rw [openAtEnd_eq, (findings_eq_nil_iff_current a).mp complete]
    rfl
  have moved : openAtEnd (a ++ '\n' :: b) = (openAtEnd b).renumbered (· + a.lines.length) := by
    have below := foldl_scanNext_renumbered (· + a.lines.length) (Line.ofSource b) {}
    rw [← closed] at below
    rw [openAtEnd, Line.ofSource_append_break, List.foldl_append]
    exact below
  simp only [findings, moved, get_renumbered, List.map_filterMap, Option.map_map]
  rfl

/-! ### What the scan reports -/

/-- At every point of the scan at most one slot is open, that of the state with a single open quote. Nothing is reported
    just when the characters that count are plain ones and complete literals. Otherwise one quote is reported at its
    place: the one that counts, has nothing but complete literals before it and is not met again. And a text on which
    nothing is reported moves what is reported below it down by its lines, and does no more. -/
theorem scan_exact (source : Text) :
    (∀ lines line later start rest, Line.ofSource source = lines ++ line :: later → line.text = start ++ rest →
      AgreesAt source lines line later start rest) ∧
    (findings source = [] ↔ Complete (visible source)) ∧
    (∀ quote place, findings source = [⟨place.line, place.column, .unclosedQuote quote⟩] ↔
      ∃ before after, LeftOpen source quote before after ∧ place = Place.behind before) ∧
    (findings source ≠ [] → ∃ quote place, findings source = [⟨place.line, place.column, .unclosedQuote quote⟩] ∧
      charAt? source place = some quote.char) ∧
    (findings source = [] → ∀ below,
      findings (source ++ '\n' :: below) = (findings below).map (·.moved source.lines.length)) := by
  have reported (quote : Quote) (place : Place) :
      findings source = [⟨place.line, place.column, .unclosedQuote quote⟩] ↔
        ∃ before after, LeftOpen source quote before after ∧ place = Place.behind before := by
    rw [← current_eq_some_iff, findings_eq]
    cases (scan .start source).current with
    | none => simp
    | some opened =>
      obtain ⟨other, ⟨line, column⟩⟩ := opened
      obtain ⟨placeLine, placeColumn⟩ := place
      simp only [List.cons.injEq, Finding.mk.injEq, Cause.unclosedQuote.injEq, and_true, Option.some.injEq, Prod.mk.injEq,
        Place.mk.injEq]
      tauto
  refine ⟨fun lines line later start rest => agrees_at, findings_eq_nil_iff source, reported, fun some_finding => ?_,
    fun complete => findings_append_break complete⟩
  cases opened : (scan .start source).current with
  | none => exact absurd ((findings_eq_nil_iff_current source).mpr opened) some_finding
  | some own =>
    obtain ⟨quote, place⟩ := own
    obtain ⟨before, after, left, rfl⟩ := current_eq_some_iff.mp opened
    refine ⟨quote, Place.behind before, (reported _ _).mpr ⟨before, after, left, rfl⟩, ?_⟩
    rw [left.parts]
    exact charAt?_behind (char_plain quote).1 before after

/-- A single quote below a literal over two lines that holds quotes of the other kinds and a hidden one of its own. -/
theorem scan_exact_below_literal :
    findings "n(\x60c 'd\n\\\x60 \"\x60)".toList = [] ∧
    findings ("n(\x60c 'd\n\\\x60 \"\x60)".toList ++ '\n' :: "s('bd".toList) =
      [⟨3, 3, .unclosedQuote .single⟩] ∧
    charAt? ("n(\x60c 'd\n\\\x60 \"\x60)".toList ++ '\n' :: "s('bd".toList) ⟨3, 3⟩ = some '\'' := by
  obtain ⟨-, -, -, -, below⟩ := scan_exact "n(\x60c 'd\n\\\x60 \"\x60)".toList
  have complete : findings "n(\x60c 'd\n\\\x60 \"\x60)".toList = [] := by decide
  have alone : findings "s('bd".toList = [⟨1, 3, .unclosedQuote .single⟩] := by decide
  exact ⟨complete, (below complete _).trans (by rw [alone]; rfl), by decide⟩

end Quotes
end PatternLint
