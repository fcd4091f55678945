import PatternLint.Proofs.Text
import PatternLint.Rule.Sources

/-!
# The scan for open quotes

The three slots of the scan never hold more than one open quote: the scan is that of a state with a single open
quote, which steps through the whole source character by character (`openAtEnd_eq`). So at most one quote is
reported (`findings_eq`), and none just for the sources whose visible characters are plain characters and
complete literals (`findings_eq_nil_iff`).
-/
namespace PatternLint.Quotes

/-! ### One open quote -/

/-- A place of the scan: where it is, whether a backslash stands right before, and the open quote, if there is
    one, with the place where it was opened. -/
structure ScanState where
  place : Place
  hidden : Bool
  current : Option (Quote × Place)

/-- The slots in which at most one quote is open. -/
def slots : Option (Quote × Place) → OpenQuotes
  | none => {}
  | some (quote, place) => OpenQuotes.set {} (some place) quote

/-- The open quote behind a character that is not hidden: a quote opens where none is open and closes where its
    own kind is. -/
def meet (current : Option (Quote × Place)) (place : Place) (c : Char) : Option (Quote × Place) :=
  match current with
  | none => (Quote.ofChar? c).map fun quote => (quote, place)
  | some (quote, start) => if c = quote.char then none else some (quote, start)

/-- The state behind a character. A line break ends what a backslash hides. -/
def ScanState.step (state : ScanState) (c : Char) : ScanState :=
  if c = '\n' then ⟨⟨state.place.line + 1, 1⟩, false, state.current⟩
  else if state.hidden then ⟨⟨state.place.line, state.place.column + 1⟩, false, state.current⟩
  else ⟨⟨state.place.line, state.place.column + 1⟩, c = '\\', meet state.current state.place c⟩

def scan (state : ScanState) (text : Text) : ScanState := text.foldl ScanState.step state

def ScanState.start : ScanState := ⟨⟨1, 1⟩, false, none⟩

theorem ofChar?_eq_some_iff {c : Char} {quote : Quote} : Quote.ofChar? c = some quote ↔ c = quote.char := by
  constructor
  · intro found
    have same := List.find?_some (p := fun quote : Quote => quote.char = c) found
    exact (of_decide_eq_true same).symm
  · rintro rfl
    cases quote <;> decide

theorem toggle_slots (current : Option (Quote × Place)) (quote : Quote) (place : Place) :
    (slots current).toggle quote place = slots (meet current place quote.char) := by
  cases current with
  | none => cases quote <;> rfl
  | some opened =>
    obtain ⟨other, start⟩ := opened
    cases other <;> cases quote <;> rfl

theorem meet_of_plain {c : Char} (plain : Quote.ofChar? c = none) (current : Option (Quote × Place)) (place : Place) :
    meet current place c = current := by
  cases current with
  | none => simp [meet, plain]
  | some opened =>
    obtain ⟨quote, start⟩ := opened
    have other : c ≠ quote.char := fun same => by
      rw [ofChar?_eq_some_iff.mpr same] at plain
      cases plain
    simp [meet, other]

theorem scan_cons (state : ScanState) (c : Char) (text : Text) : scan state (c :: text) = scan (state.step c) text :=
  rfl

theorem scan_append (state : ScanState) (a b : Text) : scan state (a ++ b) = scan (scan state a) b :=
  List.foldl_append

/-- On one line the slots hold what the single open quote says. -/
theorem scanLine_slots (line : Nat) {text : Text} (unbroken : '\n' ∉ text) (column : Nat) (hidden : Bool)
    (current : Option (Quote × Place)) :
    scanLine line column hidden (slots current) text = slots (scan ⟨⟨line, column⟩, hidden, current⟩ text).current := by
  induction text generalizing column hidden current with
  | nil => cases hidden <;> rfl
  | cons c text ih =>
    have noBreak : c ≠ '\n' := fun same => unbroken (by simp [same])
    have next := ih fun member => unbroken (List.mem_cons_of_mem c member)
    rw [scan_cons, ScanState.step, if_neg noBreak]
    cases hidden with
    | true => exact next (column + 1) false current
    | false =>
      rw [scanLine, if_neg Bool.false_ne_true]
      by_cases backslash : c = '\\'
      · have plain : Quote.ofChar? c = none := by rw [backslash]; decide
        rw [if_pos backslash, meet_of_plain plain, decide_eq_true backslash]
        exact next (column + 1) true current
      · rw [if_neg backslash, decide_eq_false backslash]
        cases kind : Quote.ofChar? c with
        | none =>
          rw [meet_of_plain kind]
          exact next (column + 1) false current
        | some quote =>
          rw [ofChar?_eq_some_iff.mp kind, ← next (column + 1) false, ← toggle_slots]

theorem scan_line {text : Text} (unbroken : '\n' ∉ text) (state : ScanState) :
    (scan state text).place.line = state.place.line := by
  induction text generalizing state with
  | nil => rfl
  | cons c text ih =>
    have noBreak : c ≠ '\n' := fun same => unbroken (by simp [same])
    rw [scan_cons, ih fun member => unbroken (List.mem_cons_of_mem c member), ScanState.step, if_neg noBreak]
    split <;> rfl

def atLine (number : Nat) (current : Option (Quote × Place)) : ScanState := ⟨⟨number, 1⟩, false, current⟩

theorem step_break (state : ScanState) : state.step '\n' = atLine (state.place.line + 1) state.current := rfl

/-- Scanning line by line is scanning the lines joined by line breaks. -/
theorem foldl_scanLine {texts : List Text} (some_text : texts ≠ []) (unbroken : ∀ text ∈ texts, '\n' ∉ text)
    (number : Nat) (current : Option (Quote × Place)) :
    (texts.mapIdx fun index text => (⟨index + number, text⟩ : Line)).foldl
        (fun quotes line => scanLine line.number 1 false quotes line.text) (slots current) =
      slots (scan (atLine number current) (Text.unlines texts)).current := by
  induction texts generalizing number current with
  | nil => exact absurd rfl some_text
  | cons text texts ih =>
    have first := scanLine_slots number (unbroken text (by simp)) 1 false current
    cases texts with
    | nil => simpa [List.mapIdx_cons, atLine] using first
    | cons next texts =>
      have rest := ih (by simp) (fun text member => unbroken text (List.mem_cons_of_mem _ member)) (number + 1)
        (scan (atLine number current) text).current
      have numbers : ∀ index, index + 1 + number = index + (number + 1) := by omega
      rw [Text.unlines_cons_cons, scan_append, scan_cons, step_break, scan_line (unbroken text (by simp)),
        List.mapIdx_cons, List.foldl_cons]
      simp only [Nat.zero_add, numbers]
      rw [first]
      exact rest

theorem openAtEnd_eq (source : Text) : openAtEnd source = slots (scan .start source).current := by
  have whole : Text.unlines source.lines = source := Text.intercalate_splitOn '\n' source
  have folded := foldl_scanLine (Text.splitOn_ne_nil '\n' source)
    (fun text member => Text.not_mem_of_mem_lines member) 1 none
  rw [show Text.splitOn '\n' source = source.lines from rfl, whole] at folded
  exact folded

theorem findings_eq (source : Text) :
    findings source =
      match (scan .start source).current with
      | none => []
      | some (quote, place) => [⟨place.line, place.column, .unclosedQuote quote⟩] := by
  rw [findings, openAtEnd_eq]
  cases (scan .start source).current with
  | none => rfl
  | some opened =>
    obtain ⟨quote, place⟩ := opened
    cases quote <;> rfl

/-! ### Characters that count -/

/-- The characters of a text that count, where `hidden` tells whether a backslash stands before it: a backslash
    and the next character of its line do not. -/
def visibleFrom : Bool → Text → Text
  | _, [] => []
  | hidden, c :: text =>
    if c = '\n' then c :: visibleFrom false text
    else if hidden then visibleFrom false text
    else if c = '\\' then visibleFrom true text
    else c :: visibleFrom false text

/-- A text without its backslashes and what they hide. -/
def visible (text : Text) : Text := visibleFrom false text

/-- Whether a character counts where the scan meets it. -/
def ScanState.Sees (state : ScanState) (c : Char) : Prop := c = '\n' ∨ state.hidden = false ∧ c ≠ '\\'

section
variable {state : ScanState} {c : Char}

theorem visibleFrom_of_sees (sees : state.Sees c) (text : Text) :
    visibleFrom state.hidden (c :: text) = c :: visibleFrom (state.step c).hidden text := by
  rcases sees with rfl | ⟨counts, other⟩
  · rfl
  · rw [visibleFrom, ScanState.step, counts]
    split <;> simp [other]

theorem visibleFrom_of_not_sees (hides : ¬ state.Sees c) (text : Text) :
    visibleFrom state.hidden (c :: text) = visibleFrom (state.step c).hidden text := by
  obtain ⟨noBreak, hidden⟩ := not_or.mp hides
  rw [visibleFrom, ScanState.step, if_neg noBreak, if_neg noBreak]
  cases own : state.hidden with
  | true => rfl
  | false =>
    have backslash : c = '\\' := by simpa [own] using hidden
    simp [backslash]

theorem current_of_sees (sees : state.Sees c) : (state.step c).current = meet state.current state.place c := by
  by_cases lineBreak : c = '\n'
  · subst lineBreak
    exact (meet_of_plain (by decide) state.current state.place).symm
  · obtain ⟨counts, other⟩ := sees.resolve_left lineBreak
    rw [ScanState.step, if_neg lineBreak, if_neg (by simp [counts])]

theorem current_of_not_sees (hides : ¬ state.Sees c) : (state.step c).current = state.current := by
  obtain ⟨noBreak, hidden⟩ := not_or.mp hides
  rw [ScanState.step, if_neg noBreak]
  cases own : state.hidden with
  | true => rfl
  | false =>
    have backslash : c = '\\' := by simpa [own] using hidden
    have plain : Quote.ofChar? c = none := by rw [backslash]; decide
    simp [meet_of_plain plain]

theorem hidden_of_sees (sees : state.Sees c) : (state.step c).hidden = false := by
  rcases sees with rfl | ⟨counts, other⟩
  · rfl
  · rw [ScanState.step, counts]
    split <;> simp [other]

end

theorem visibleFrom_append (state : ScanState) (a b : Text) :
    visibleFrom state.hidden (a ++ b) = visibleFrom state.hidden a ++ visibleFrom (scan state a).hidden b := by
  induction a generalizing state with
  | nil => rfl
  | cons c a ih =>
    rw [List.cons_append, scan_cons]
    by_cases sees : state.Sees c
    · rw [visibleFrom_of_sees sees, visibleFrom_of_sees sees, ih, List.cons_append]
    · rw [visibleFrom_of_not_sees sees, visibleFrom_of_not_sees sees, ih]

/-! ### Complete literals -/

/-- Plain characters and complete literals. A literal ends at the next quote of its own kind and holds all other
    characters, quotes of the other kinds among them. -/
inductive Complete : Text → Prop
  | nil : Complete []
  | plain {c : Char} {text : Text} : Quote.ofChar? c = none → Complete text → Complete (c :: text)
  | literal {quote : Quote} {inside text : Text} :
      quote.char ∉ inside → Complete text → Complete (quote.char :: inside ++ quote.char :: text)

theorem Complete.append {a b : Text} (first : Complete a) (second : Complete b) : Complete (a ++ b) := by
  induction first with
  | nil => exact second
  | plain plain _ ih => exact .plain plain ih
  | @literal quote inside text free _ ih =>
    rw [List.append_assoc]
    exact .literal free ih

/-- The kind of quote that is open behind characters that count. -/
def openBehind : Option Quote → Text → Option Quote
  | current, [] => current
  | none, c :: text => openBehind (Quote.ofChar? c) text
  | some quote, c :: text => openBehind (if c = quote.char then none else some quote) text

theorem openBehind_meet (current : Option (Quote × Place)) (place : Place) (c : Char) (text : Text) :
    openBehind ((meet current place c).map (·.1)) text = openBehind (current.map (·.1)) (c :: text) := by
  cases current with
  | none => cases kind : Quote.ofChar? c <;> simp [meet, openBehind, kind]
  | some opened =>
    obtain ⟨quote, start⟩ := opened
    by_cases closes : c = quote.char <;> simp [meet, openBehind, closes]

theorem scan_kind (state : ScanState) (text : Text) :
    (scan state text).current.map (·.1) = openBehind (state.current.map (·.1)) (visibleFrom state.hidden text) := by
  induction text generalizing state with
  | nil => simp [scan, visibleFrom, openBehind]
  | cons c text ih =>
    rw [scan_cons, ih]
    by_cases sees : state.Sees c
    · rw [current_of_sees sees, visibleFrom_of_sees sees, openBehind_meet]
    · rw [current_of_not_sees sees, visibleFrom_of_not_sees sees]

theorem openBehind_append_of_free {quote : Quote} {inside : Text} (free : quote.char ∉ inside) (text : Text) :
    openBehind (some quote) (inside ++ quote.char :: text) = openBehind none text := by
  induction inside with
  | nil => simp [openBehind]
  | cons c inside ih =>
    have other : c ≠ quote.char := fun same => free (by simp [same])
    rw [List.cons_append, openBehind, if_neg other]
    exact ih fun member => free (List.mem_cons_of_mem c member)

/-- An open quote that is closed in the end is closed for the first time somewhere. -/
theorem exists_close {quote : Quote} {text : Text} (closed : openBehind (some quote) text = none) :
    ∃ inside rest, text = inside ++ quote.char :: rest ∧ quote.char ∉ inside := by
  induction text with
  | nil => cases closed
  | cons c text ih =>
    by_cases closes : c = quote.char
    · exact ⟨[], text, by simp [closes], by simp⟩
    · rw [openBehind, if_neg closes] at closed
      obtain ⟨inside, rest, rfl, free⟩ := ih closed
      exact ⟨c :: inside, rest, rfl, by simp [Ne.symm closes, free]⟩

theorem complete_iff (text : Text) : Complete text ↔ openBehind none text = none := by
  constructor
  · intro complete
    induction complete with
    | nil => rfl
    | plain plain _ ih => rw [openBehind, plain]; exact ih
    | @literal quote inside text free _ ih =>
      rw [List.cons_append, openBehind, ofChar?_eq_some_iff.mpr rfl, openBehind_append_of_free free]
      exact ih
  · -- each literal takes a piece off the front, so the induction is on the length
    induction size : text.length using Nat.strong_induction_on generalizing text with
    | _ size ih =>
      intro closed
      cases text with
      | nil => exact .nil
      | cons c text =>
        simp only [List.length_cons] at size
        rw [openBehind] at closed
        cases kind : Quote.ofChar? c with
        | none =>
          rw [kind] at closed
          exact .plain kind (ih text.length (by omega) text rfl closed)
        | some quote =>
          rw [kind] at closed
          obtain ⟨inside, rest, rfl, free⟩ := exists_close closed
          rw [openBehind_append_of_free free] at closed
          rw [ofChar?_eq_some_iff.mp kind]
          simp only [List.length_append, List.length_cons] at size
          exact .literal free (ih rest.length (by omega) rest rfl closed)

/-- No quote is reported just for the sources whose visible characters are complete. -/
theorem findings_eq_nil_iff (source : Text) : findings source = [] ↔ Complete (visible source) := by
  have kind := scan_kind .start source
  have kind : (scan .start source).current.map (·.1) = openBehind none (visible source) := kind
  rw [complete_iff, ← kind, findings_eq]
  cases (scan .start source).current <;> simp

/-! ### Joined texts -/

theorem visible_append_break (a b : Text) : visible (a ++ '\n' :: b) = visible a ++ '\n' :: visible b :=
  visibleFrom_append .start a ('\n' :: b)

theorem complete_append_break {a b : Text} (first : Complete (visible a)) (second : Complete (visible b)) :
    Complete (visible (a ++ '\n' :: b)) := by
  rw [visible_append_break]
  exact first.append (.plain (by decide) second)

end PatternLint.Quotes
