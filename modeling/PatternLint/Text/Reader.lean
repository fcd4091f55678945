import PatternLint.Text.Basic
import PatternLint.Text.Search

/-!
# Reading calls

Readers take what they read off the front of a text: a fixed word, the opening of a call, a call with one
argument between blanks, and the two kinds of argument, a quoted text and a numeral. What a reader leaves is
always a tail of the text.
-/
namespace PatternLint.Reader

variable {α : Type}

/-- The text behind a word that the text starts with. -/
def literal : Text → Text → Option Text
  | [], text => some text
  | _ :: _, [] => none
  | c :: word, d :: text => if c = d then literal word text else none

def opening (word text : Text) : Option Text :=
  match literal word text with
  | some rest => literal ['('] rest.trimLeft
  | none => none

/-- A word called on one argument, with blanks anywhere between the parts. -/
def call (word : Text) (argument : Text → Option (α × Text)) (text : Text) : Option (α × Text) :=
  match opening word text with
  | none => none
  | some rest =>
    match argument rest.trimLeft with
    | none => none
    | some (value, rest) =>
      match literal [')'] rest.trimLeft with
      | none => none
      | some rest => some (value, rest)

def isQuote (c : Char) : Bool := c = '"' || c = '\''

/-- A quoted argument: one or more characters that are no quotes, between two quotes, not necessarily alike. -/
def quoted : Text → Option (Text × Text)
  | [] => none
  | c :: text =>
    if isQuote c then
      match text.takeWhile (!isQuote ·), text.dropWhile (!isQuote ·) with
      | [], _ => none
      | _ :: _, [] => none
      | d :: inner, _ :: rest => some (d :: inner, rest)
    else none

/-- Whether a character may stand in a numeral. -/
def isNumeral (c : Char) : Bool := c.isDigit || c = '.'

/-- A numeral argument: one or more digits and points. -/
def numeral (text : Text) : Option (Text × Text) :=
  match text.takeWhile isNumeral with
  | [] => none
  | c :: rest => some (c :: rest, text.dropWhile isNumeral)

/-! ### What readers leave -/

theorem literal_eq_some_iff {word text rest : Text} : literal word text = some rest ↔ text = word ++ rest := by
  induction word generalizing text with
  | nil => simp [literal, eq_comm]
  | cons c word ih =>
    cases text with
    | nil => simp [literal]
    | cons d text =>
      rw [literal]
      split
      · next same => simp [ih, same]
      · next other => simp [Ne.symm other]

theorem trimLeft_suffix (text : Text) : text.trimLeft <:+ text := List.dropWhile_suffix isBlank

/-- The opening of a call is the word, then some blanks, then the parenthesis. -/
theorem opening_eq_some_iff {word text rest : Text} :
    opening word text = some rest ↔ ∃ tail, text = word ++ tail ∧ tail.trimLeft = '(' :: rest := by
  unfold opening
  constructor
  · intro read
    split at read
    · next tail start =>
      exact ⟨tail, literal_eq_some_iff.mp start, by simpa using literal_eq_some_iff.mp read⟩
    · simp at read
  · rintro ⟨tail, start, trimmed⟩
    rw [literal_eq_some_iff.mpr start]
    simp only
    exact literal_eq_some_iff.mpr (by simpa using trimmed)

/-- A call is its opening, blanks, the argument, blanks and the closing parenthesis. -/
theorem call_eq_some_iff {word text after : Text} {argument : Text → Option (α × Text)} {value : α} :
    call word argument text = some (value, after) ↔
      ∃ inner tail, opening word text = some inner ∧ argument inner.trimLeft = some (value, tail) ∧
        tail.trimLeft = ')' :: after := by
  unfold call
  constructor
  · intro read
    split at read
    · simp at read
    · next inner start =>
      split at read
      · simp at read
      · next value' tail given =>
        split at read
        · simp at read
        · next rest closed =>
          simp only [Option.some.injEq, Prod.mk.injEq] at read
          obtain ⟨rfl, rfl⟩ := read
          exact ⟨inner, tail, start, given, by simpa using literal_eq_some_iff.mp closed⟩
  · rintro ⟨inner, tail, start, given, closed⟩
    have closed' : literal [')'] tail.trimLeft = some after := literal_eq_some_iff.mpr (by simpa using closed)
    simp [start, given, closed']

theorem opening_suffix {word text rest : Text} (read : opening word text = some rest) :
    rest <:+ text ∧ rest.length < text.length := by
  obtain ⟨tail, rfl, trimmed⟩ := opening_eq_some_iff.mp read
  have inTail : '(' :: rest <:+ tail := trimmed ▸ trimLeft_suffix tail
  have inWhole : '(' :: rest <:+ word ++ tail := inTail.trans (List.suffix_append word tail)
  refine ⟨(List.suffix_cons '(' rest).trans inWhole, ?_⟩
  exact inWhole.length_le

theorem quoted_suffix {text rest value : Text} (read : quoted text = some (value, rest)) : rest <:+ text := by
  unfold quoted at read
  split at read
  · simp at read
  · next c text =>
    split at read
    · split at read
      · simp at read
      · simp at read
      · next d inner e rest' taken dropped =>
        simp only [Option.some.injEq, Prod.mk.injEq] at read
        obtain ⟨_, rfl⟩ := read
        have inText : e :: rest' <:+ text := dropped ▸ List.dropWhile_suffix _
        exact ((List.suffix_cons e rest').trans inText).trans (List.suffix_cons c text)
    · simp at read

theorem numeral_suffix {text rest value : Text} (read : numeral text = some (value, rest)) : rest <:+ text := by
  unfold numeral at read
  split at read
  · simp at read
  · simp only [Option.some.injEq, Prod.mk.injEq] at read
    obtain ⟨_, rfl⟩ := read
    exact List.dropWhile_suffix _

/-- A tail that is shorter leaves a word in front of it. -/
theorem exists_word_of_suffix {text rest : Text} (tail : rest <:+ text) (shorter : rest.length < text.length) :
    ∃ word, word ≠ [] ∧ text = word ++ rest := by
  obtain ⟨word, is⟩ := tail
  refine ⟨word, ?_, is.symm⟩
  rintro rfl
  simp at is
  simp [is] at shorter

/-- A call leaves a shorter text. -/
theorem call_advances {word text after : Text} {argument : Text → Option (α × Text)} {value : α}
    (leaves : ∀ {text value rest}, argument text = some (value, rest) → rest <:+ text)
    (read : call word argument text = some (value, after)) : ∃ front, front ≠ [] ∧ text = front ++ after := by
  obtain ⟨inner, tail, start, given, closed⟩ := call_eq_some_iff.mp read
  obtain ⟨inText, shorter⟩ := opening_suffix start
  have afterTail : after <:+ tail := (List.suffix_cons ')' after).trans (closed ▸ trimLeft_suffix tail)
  have afterInner : after <:+ inner := (afterTail.trans (leaves given)).trans (trimLeft_suffix inner)
  exact exists_word_of_suffix (afterInner.trans inText) (Nat.lt_of_le_of_lt afterInner.length_le shorter)

/-- The opening of a call leaves a shorter text. -/
theorem opening_advances {word text after : Text} (read : opening word text = some after) :
    ∃ front, front ≠ [] ∧ text = front ++ after :=
  exists_word_of_suffix (opening_suffix read).1 (opening_suffix read).2

end PatternLint.Reader
