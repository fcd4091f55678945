import PatternLint.Proofs.JsonNumbers
import PatternLint.Proofs.JsonStrings

/-!
# Texts of JSON

What a text of JSON is and which value it has, whoever wrote it: with blanks, line breaks, fractions, exponents and
escapes as the grammar allows them (`Written`). A reader takes such texts apart, and finds a value just where the grammar
gives one (`parse?_eq_some_iff`). So no text has two values (`Written.unique`).
-/
namespace PatternLint.Json.Standard

/-- A value of JSON. The members of an object come in the order of its text, and a number is the one that it denotes. -/
inductive Value where
  | null
  | bool (value : Bool)
  | number (value : ℚ)
  | string (value : Text)
  | list (items : List Value)
  | object (members : List (Text × Value))

/-! ### Gaps -/

def isSpace (c : Char) : Bool := c = ' ' || c = '\t' || c = '\n' || c = '\r'

/-- Whether a text may stand between the parts of another. -/
def Spaces (text : Text) : Prop := ∀ c ∈ text, isSpace c = true

def skip (text : Text) : Text := text.dropWhile isSpace

/-- Whether a text starts with no blank. -/
def Solid (text : Text) : Prop := ∀ c ∈ text.head?, isSpace c = false

theorem skip_append {gap : Text} (spaces : Spaces gap) (text : Text) : skip (gap ++ text) = skip text :=
  List.dropWhile_append_of_pos spaces

theorem skip_of_solid {text : Text} (solid : Solid text) : skip text = text := by
  cases text with
  | nil => rfl
  | cons c text =>
    have other : isSpace c = false := solid c rfl
    rw [skip, List.dropWhile_cons_of_neg (by simp [other])]

theorem exists_gap (text : Text) : ∃ gap, Spaces gap ∧ text = gap ++ skip text :=
  ⟨text.takeWhile isSpace, fun _ member => List.mem_takeWhile_imp member, List.takeWhile_append_dropWhile.symm⟩

/-! ### Values -/

/-- The values that have a word of their own. -/
def words : List (Text × Value) := [("null".toList, .null), ("true".toList, .bool true), ("false".toList, .bool false)]

/-- What the grammar tells the text of. -/
inductive Phrase where
  | value (value : Value)
  /-- A value with gaps around it, like each item of a list. -/
  | item (value : Value)
  /-- A member of an object, with gaps around its parts. -/
  | member (name : Text) (value : Value)
  | items (values : List Value)
  | members (members : List (Text × Value))

/-- The texts of values. A text of JSON as a whole is that of an item. -/
inductive Written : Phrase → Text → Prop
  | word {value : Value} {text : Text} : (text, value) ∈ words → Written (.value value) text
  | number {number : ℚ} {text : Text} : Number number text → Written (.value (.number number)) text
  | string {value text : Text} : InQuotes value text → Written (.value (.string value)) text
  | noItems {gap : Text} : Spaces gap → Written (.value (.list [])) ('[' :: gap ++ [']'])
  | list {values : List Value} {text : Text} : Written (.items values) text →
      Written (.value (.list values)) ('[' :: text ++ [']'])
  | noMembers {gap : Text} : Spaces gap → Written (.value (.object [])) ('\x7b' :: gap ++ ['\x7d'])
  | object {members : List (Text × Value)} {text : Text} : Written (.members members) text →
      Written (.value (.object members)) ('\x7b' :: text ++ ['\x7d'])
  | item {value : Value} {before text behind : Text} : Spaces before → Written (.value value) text → Spaces behind →
      Written (.item value) (before ++ text ++ behind)
  | member {name before first between second : Text} {value : Value} : Spaces before → InQuotes name first → Spaces between →
      Written (.item value) second → Written (.member name value) (before ++ first ++ between ++ ':' :: second)
  | lastItem {value : Value} {text : Text} : Written (.item value) text → Written (.items [value]) text
  | moreItems {value : Value} {values : List Value} {text more : Text} : Written (.item value) text →
      Written (.items values) more → Written (.items (value :: values)) (text ++ ',' :: more)
  | lastMember {name text : Text} {value : Value} : Written (.member name value) text →
      Written (.members [(name, value)]) text
  | moreMembers {name text more : Text} {value : Value} {members : List (Text × Value)} :
      Written (.member name value) text → Written (.members members) more →
      Written (.members ((name, value) :: members)) (text ++ ',' :: more)

section

variable {α : Type}

/-- Elements with commas between them up to a closing character, and the text behind it; `steps` bounds their number. -/
def row? (element? : Text → Option (α × Text)) (closer : Char) : (steps : Nat) → Text → Option (List α × Text)
  | 0, _ => none
  | steps + 1, text =>
    match element? text with
    | none => none
    | some (_, []) => none
    | some (element, c :: rest) =>
      if c = ',' then (row? element? closer steps rest).map fun (elements, rest) => (element :: elements, rest)
      else if c = closer then some ([element], rest) else none

/-- No element or a row of them up to a closing character, and the text behind it. -/
def rows? (element? : Text → Option (α × Text)) (closer : Char) (text : Text) : Option (List α × Text) :=
  match skip text with
  | [] => none
  | c :: rest => if c = closer then some ([], rest) else row? element? closer text.length text

end

section

variable (value? : Text → Option (Value × Text))

def item? (text : Text) : Option (Value × Text) :=
  (value? (skip text)).map fun (value, rest) => (value, skip rest)

def member? (text : Text) : Option ((Text × Value) × Text) :=
  match quoted? (skip text) with
  | none => none
  | some (name, rest) =>
    match skip rest with
    | [] => none
    | c :: rest => if c = ':' then (item? value? rest).map fun (value, rest) => ((name, value), rest) else none

end

def word? (text : Text) : Option (Value × Text) :=
  words.findSome? fun (word, value) => (Reader.literal word text).map fun rest => (value, rest)

/-- The value that a text starts with, and the text behind it; `steps` bounds how deep values stand in each other. -/
def value? : (steps : Nat) → Text → Option (Value × Text)
  | 0, _ => none
  | _, [] => none
  | steps + 1, c :: text =>
    if c = '[' then (rows? (item? (value? steps)) ']' text).map fun (values, rest) => (.list values, rest)
    else if c = '\x7b' then (rows? (member? (value? steps)) '\x7d' text).map fun (members, rest) => (.object members, rest)
    else if c = '"' then (quoted? (c :: text)).map fun (value, rest) => (.string value, rest)
    else
      match word? (c :: text) with
      | some read => some read
      | none => (number? (c :: text)).map fun (number, rest) => (.number number, rest)

/-- The value of a text of JSON. -/
def parse? (text : Text) : Option Value :=
  match item? (value? text.length) text with
  | some (value, []) => some value
  | _ => none

/-! ### What is read is written so -/

section

variable {α : Type} {element? : Text → Option (α × Text)} {closer : Char} (One : α → Text → Prop)
  (Row : List α → Text → Prop)
  (sound : ∀ {text rest : Text} {element : α}, element? text = some (element, rest) →
    ∃ front, text = front ++ rest ∧ One element front)
  (last : ∀ {element : α} {text : Text}, One element text → Row [element] text)
  (more : ∀ {element : α} {elements : List α} {text others : Text}, One element text → Row elements others →
    Row (element :: elements) (text ++ ',' :: others))

include sound last more

theorem row_of_row? {steps : Nat} {text rest : Text} {elements : List α}
    (read : row? element? closer steps text = some (elements, rest)) :
    ∃ front, text = front ++ closer :: rest ∧ Row elements front := by
  induction steps generalizing text elements with
  | zero => cases read
  | succ steps ih =>
    rw [row?] at read
    split at read
    · cases read
    · cases read
    · next element c behind found =>
      obtain ⟨front, rfl, one⟩ := sound found
      split at read
      · next comma =>
        subst comma
        obtain ⟨pair, others, same⟩ := Option.map_eq_some_iff.mp read
        cases same
        obtain ⟨second, rfl, row⟩ := ih others
        exact ⟨front ++ ',' :: second, by simp, more one row⟩
      · split at read
        · next closes =>
          cases read
          exact ⟨front, by rw [closes], last one⟩
        · cases read

theorem rows_of_rows? {text rest : Text} {elements : List α} (read : rows? element? closer text = some (elements, rest)) :
    ∃ front, text = front ++ closer :: rest ∧ (elements = [] ∧ Spaces front ∨ Row elements front) := by
  obtain ⟨gap, spaces, whole⟩ := exists_gap text
  rw [rows?] at read
  split at read
  · cases read
  · next c behind start =>
    split at read
    · next closes =>
      cases read
      exact ⟨gap, by rw [whole, start, closes], .inl ⟨rfl, spaces⟩⟩
    · obtain ⟨front, same, row⟩ := row_of_row? One Row sound last more read
      exact ⟨front, same, .inr row⟩

end

section

variable {read : Text → Option (Value × Text)}
  (sound : ∀ {text rest : Text} {value : Value}, read text = some (value, rest) →
    ∃ front, text = front ++ rest ∧ Written (.value value) front)

include sound

theorem item_of_item? {text rest : Text} {value : Value} (found : item? read text = some (value, rest)) :
    ∃ front, text = front ++ rest ∧ Written (.item value) front := by
  obtain ⟨gap, spaces, whole⟩ := exists_gap text
  rw [item?] at found
  obtain ⟨pair, own, same⟩ := Option.map_eq_some_iff.mp found
  cases same
  obtain ⟨front, start, written⟩ := sound own
  obtain ⟨other, alsoSpaces, behind⟩ := exists_gap pair.2
  refine ⟨gap ++ front ++ other, ?_, .item spaces written alsoSpaces⟩
  rw [List.append_assoc, List.append_assoc, ← behind, ← start, ← whole]

theorem member_of_member? {text rest : Text} {member : Text × Value} (found : member? read text = some (member, rest)) :
    ∃ front, text = front ++ rest ∧ Written (.member member.1 member.2) front := by
  obtain ⟨gap, spaces, whole⟩ := exists_gap text
  rw [member?] at found
  split at found
  · cases found
  · next name behind quoted =>
    obtain ⟨first, start, own⟩ := inQuotes_of_quoted? quoted
    obtain ⟨between, alsoSpaces, middle⟩ := exists_gap behind
    split at found
    · cases found
    · next c last rests =>
      split at found
      · next colon =>
        obtain ⟨pair, given, same⟩ := Option.map_eq_some_iff.mp found
        cases same
        obtain ⟨second, rfl, written⟩ := item_of_item? sound given
        refine ⟨gap ++ first ++ between ++ ':' :: second, ?_, .member spaces own alsoSpaces written⟩
        rw [whole, start, middle, rests, colon]
        simp only [List.append_assoc, List.cons_append]
      · cases found

theorem items_of_rows? {text rest : Text} {values : List Value}
    (found : rows? (item? read) ']' text = some (values, rest)) :
    ∃ front, text = front ++ ']' :: rest ∧ (values = [] ∧ Spaces front ∨ Written (.items values) front) :=
  rows_of_rows? (Written <| .item ·) (Written <| .items ·) (item_of_item? sound) .lastItem .moreItems found

theorem members_of_rows? {text rest : Text} {members : List (Text × Value)}
    (found : rows? (member? read) '\x7d' text = some (members, rest)) :
    ∃ front, text = front ++ '\x7d' :: rest ∧ (members = [] ∧ Spaces front ∨ Written (.members members) front) :=
  rows_of_rows? (fun member => Written (.member member.1 member.2)) (Written <| .members ·) (member_of_member? sound)
    .lastMember .moreMembers found

end

theorem word_of_word? {text rest : Text} {value : Value} (read : word? text = some (value, rest)) :
    ∃ front, text = front ++ rest ∧ Written (.value value) front := by
  obtain ⟨⟨word, meaning⟩, listed, found⟩ := List.exists_of_findSome?_eq_some read
  obtain ⟨last, behind, same⟩ := Option.map_eq_some_iff.mp found
  cases same
  exact ⟨word, Reader.literal_eq_some_iff.mp behind, .word listed⟩

theorem value_of_value? {steps : Nat} {text rest : Text} {value : Value}
    (read : value? steps text = some (value, rest)) : ∃ front, text = front ++ rest ∧ Written (.value value) front := by
  induction steps generalizing text rest value with
  | zero => cases read
  | succ steps ih =>
    cases text with
    | nil => cases read
    | cons c text =>
      rw [value?] at read
      split at read
      · next opener =>
        obtain ⟨pair, found, same⟩ := Option.map_eq_some_iff.mp read
        cases same
        obtain ⟨front, rfl, ⟨none, spaces⟩ | row⟩ := items_of_rows? ih found
        · exact ⟨'[' :: front ++ [']'], by simp [opener], by rw [none]; exact .noItems spaces⟩
        · exact ⟨'[' :: front ++ [']'], by simp [opener], .list row⟩
      split at read
      · next opener =>
        obtain ⟨pair, found, same⟩ := Option.map_eq_some_iff.mp read
        cases same
        obtain ⟨front, rfl, ⟨none, spaces⟩ | row⟩ := members_of_rows? ih found
        · exact ⟨'\x7b' :: front ++ ['\x7d'], by simp [opener], by rw [none]; exact .noMembers spaces⟩
        · exact ⟨'\x7b' :: front ++ ['\x7d'], by simp [opener], .object row⟩
      split at read
      · obtain ⟨pair, found, same⟩ := Option.map_eq_some_iff.mp read
        cases same
        obtain ⟨front, whole, own⟩ := inQuotes_of_quoted? found
        exact ⟨front, whole, .string own⟩
      split at read
      · next pair found =>
        cases read
        exact word_of_word? found
      · obtain ⟨pair, found, same⟩ := Option.map_eq_some_iff.mp read
        cases same
        obtain ⟨front, whole, own⟩ := number_of_number? found
        exact ⟨front, whole, .number own⟩

/-! ### What is written so is read -/

theorem other_of_isSpace {c : Char} (space : isSpace c = true) :
    c.isDigit = false ∧ c ≠ '.' ∧ c ≠ 'e' ∧ c ≠ 'E' := by
  simp only [isSpace, Bool.or_eq_true, decide_eq_true_eq] at space
  rcases space with ((rfl | rfl) | rfl) | rfl <;> decide

/-- A character that is no blank and closes nothing. -/
def IsOpening (c : Char) : Prop := isSpace c = false ∧ c ≠ ']' ∧ c ≠ '\x7d'

theorem isOpening_of_isDigit {c : Char} (digit : c.isDigit = true) : IsOpening c := by
  refine ⟨?_, ?_, ?_⟩
  · by_contra space
    rw [Bool.not_eq_false] at space
    rw [(other_of_isSpace space).1] at digit
    cases digit
  · rintro rfl
    cases digit
  · rintro rfl
    cases digit

theorem Written.exists_cons {value : Value} {text : Text} (own : Written (.value value) text) :
    ∃ c more, text = c :: more ∧ IsOpening c := by
  cases own with
  | word listed =>
    simp only [words, List.mem_cons, Prod.mk.injEq, List.not_mem_nil, or_false] at listed
    rcases listed with ⟨rfl, -⟩ | ⟨rfl, -⟩ | ⟨rfl, -⟩ <;> exact ⟨_, _, rfl, by decide, by decide, by decide⟩
  | number own =>
    obtain ⟨c, more, rfl, rfl | digit⟩ := own.exists_cons
    · exact ⟨_, _, rfl, by decide, by decide, by decide⟩
    · exact ⟨c, more, rfl, isOpening_of_isDigit digit⟩
  | string own =>
    cases own
    exact ⟨_, _, rfl, by decide, by decide, by decide⟩
  | noItems | list | noMembers | object => exact ⟨_, _, rfl, by decide, by decide, by decide⟩

/-- Whether a text starts with an opening character behind a gap. -/
def Opens (text : Text) : Prop := ∃ gap c more, text = gap ++ c :: more ∧ Spaces gap ∧ IsOpening c

theorem Opens.append {text : Text} (own : Opens text) (rest : Text) : Opens (text ++ rest) := by
  obtain ⟨gap, c, more, rfl, spaces, opening⟩ := own
  exact ⟨gap, c, more ++ rest, by simp, spaces, opening⟩

theorem Opens.length_pos {text : Text} (own : Opens text) : 0 < text.length := by
  obtain ⟨gap, c, more, rfl, -⟩ := own
  simp

theorem Written.opens_behind {value : Value} {gap text : Text} (own : Written (.value value) text) (spaces : Spaces gap) :
    Opens (gap ++ text) := by
  obtain ⟨c, more, rfl, opening⟩ := own.exists_cons
  exact ⟨gap, c, more, rfl, spaces, opening⟩

/-- No text starts with what closes another. -/
theorem Written.opens {phrase : Phrase} {text : Text} (own : Written phrase text) : Opens text := by
  have none : Spaces [] := fun _ member => (List.not_mem_nil member).elim
  induction own with
  | word listed => exact (Written.word listed).opens_behind none
  | number own => exact (Written.number own).opens_behind none
  | string own => exact (Written.string own).opens_behind none
  | noItems spaces => exact (Written.noItems spaces).opens_behind none
  | list own _ => exact (Written.list own).opens_behind none
  | noMembers spaces => exact (Written.noMembers spaces).opens_behind none
  | object own _ => exact (Written.object own).opens_behind none
  | item spaces own _ _ => exact (own.opens_behind spaces).append _
  | member spaces own _ _ _ => exact (((Written.string own).opens_behind spaces).append _).append _
  | lastItem _ opens => exact opens
  | lastMember _ opens => exact opens
  | moreItems _ _ opens _ => exact opens.append _
  | moreMembers _ _ opens _ => exact opens.append _

section

variable {α : Type} {element? : Text → Option (α × Text)} {closer : Char}

theorem rows?_spaces {gap : Text} (spaces : Spaces gap) (solid : isSpace closer = false) (rest : Text) :
    rows? element? closer (gap ++ closer :: rest) = some ([], rest) := by
  have start : skip (gap ++ closer :: rest) = closer :: rest :=
    (skip_append spaces _).trans (skip_of_solid fun c head => Option.some.inj head ▸ solid)
  rw [rows?, start]
  exact if_pos rfl

theorem rows?_row {text rest : Text} {elements : List α} (opens : Opens text) (closes : closer = ']' ∨ closer = '\x7d')
    (row : ∀ count, text.length ≤ count → row? element? closer count (text ++ closer :: rest) = some (elements, rest)) :
    rows? element? closer (text ++ closer :: rest) = some (elements, rest) := by
  have whole := row (text ++ closer :: rest).length (by simp)
  obtain ⟨gap, c, more, rfl, spaces, solid, noBracket, noBrace⟩ := opens
  have start : skip (gap ++ c :: more ++ closer :: rest) = c :: (more ++ closer :: rest) := by
    rw [List.append_assoc, skip_append spaces]
    exact skip_of_solid fun d head => Option.some.inj head ▸ solid
  have other : c ≠ closer := by
    rcases closes with rfl | rfl
    · exact noBracket
    · exact noBrace
  rw [rows?, start]
  simp only [if_neg other]
  exact whole

theorem row?_last {text rest : Text} {element : α} (opens : Opens text)
    (own : element? (text ++ closer :: rest) = some (element, closer :: rest)) (noComma : closer ≠ ',') {count : Nat}
    (many : text.length ≤ count) : row? element? closer count (text ++ closer :: rest) = some ([element], rest) := by
  obtain ⟨count, rfl⟩ := Nat.exists_eq_add_of_le' (Nat.le_trans opens.length_pos many)
  rw [row?, own]
  simp only [if_neg noComma, if_true]

theorem row?_more {text others rest : Text} {element : α} {elements : List α}
    (own : element? (text ++ ',' :: (others ++ closer :: rest)) = some (element, ',' :: (others ++ closer :: rest)))
    (row : ∀ count, others.length ≤ count → row? element? closer count (others ++ closer :: rest) = some (elements, rest))
    {count : Nat} (many : (text ++ ',' :: others).length ≤ count) :
    row? element? closer count (text ++ ',' :: others ++ closer :: rest) = some (element :: elements, rest) := by
  simp only [List.length_append, List.length_cons] at many
  obtain ⟨count, rfl⟩ := Nat.exists_eq_add_of_le' (show 1 ≤ count by omega)
  rw [List.append_assoc, List.cons_append, row?, own]
  simp only [if_true, row count (by omega)]
  rfl

end

/-- Whether a text starts with what can stand behind an item. -/
def Stops (text : Text) : Prop := ∀ c ∈ text.head?, c = ',' ∨ c = ']' ∨ c = '\x7d'

theorem Stops.solid {text : Text} (stops : Stops text) : Solid text := by
  intro c head
  rcases stops c head with rfl | rfl | rfl <;> decide

theorem Stops.ends_append {gap text : Text} (stops : Stops text) (spaces : Spaces gap) : Ends (gap ++ text) := by
  cases gap with
  | nil =>
    intro c head
    rcases stops c head with rfl | rfl | rfl <;> decide
  | cons d gap =>
    rintro c ⟨⟩
    exact other_of_isSpace (spaces _ List.mem_cons_self)

/-- What the reader makes of the text of a phrase, with another text behind it. -/
def Reads : Phrase → Text → Prop
  | .value value, text => ∀ steps rest, text.length ≤ steps → Ends rest → value? steps (text ++ rest) = some (value, rest)
  | .item value, text => ∀ steps rest, text.length ≤ steps → Stops rest →
      item? (value? steps) (text ++ rest) = some (value, rest)
  | .member name value, text => ∀ steps rest, text.length ≤ steps → Stops rest →
      member? (value? steps) (text ++ rest) = some ((name, value), rest)
  | .items values, text => ∀ steps count rest, text.length ≤ steps → text.length ≤ count →
      row? (item? (value? steps)) ']' count (text ++ ']' :: rest) = some (values, rest)
  | .members members, text => ∀ steps count rest, text.length ≤ steps → text.length ≤ count →
      row? (member? (value? steps)) '\x7d' count (text ++ '\x7d' :: rest) = some (members, rest)

theorem word?_of_other {c : Char} (other : c = '-' ∨ c.isDigit = true) (text : Text) : word? (c :: text) = none := by
  have noLetter : c ≠ 'n' ∧ c ≠ 't' ∧ c ≠ 'f' := by
    rcases other with rfl | digit
    · decide
    · refine ⟨?_, ?_, ?_⟩ <;> rintro rfl <;> cases digit
  obtain ⟨noNull, noTrue, noFalse⟩ := noLetter
  simp [word?, words, Reader.literal, Ne.symm noNull, Ne.symm noTrue, Ne.symm noFalse]

theorem value?_number {number : ℚ} {text rest : Text} (own : Number number text) (ends : Ends rest) (steps : Nat) :
    value? (steps + 1) (text ++ rest) = some (.number number, rest) := by
  have read := number?_append own ends
  obtain ⟨c, more, rfl, start⟩ := own.exists_cons
  have noOpener : c ≠ '[' ∧ c ≠ '\x7b' ∧ c ≠ '"' := by
    rcases start with rfl | digit
    · decide
    · refine ⟨?_, ?_, ?_⟩ <;> rintro rfl <;> cases digit
  obtain ⟨noBracket, noBrace, noQuote⟩ := noOpener
  rw [List.cons_append] at read
  rw [List.cons_append, value?, if_neg noBracket, if_neg noBrace, if_neg noQuote, word?_of_other start, read]
  rfl

theorem item?_append {read : Text → Option (Value × Text)} {value : Value} {before text behind rest : Text}
    (spaces : Spaces before) (own : Written (.value value) text) (alsoSpaces : Spaces behind) (stops : Stops rest)
    (found : read (text ++ (behind ++ rest)) = some (value, behind ++ rest)) :
    item? read (before ++ text ++ behind ++ rest) = some (value, rest) := by
  obtain ⟨c, more, rfl, solid, -, -⟩ := own.exists_cons
  have start : skip (before ++ c :: more ++ behind ++ rest) = c :: more ++ (behind ++ rest) := by
    rw [List.append_assoc, List.append_assoc, skip_append spaces]
    exact skip_of_solid fun d head => Option.some.inj head ▸ solid
  have stop : skip (behind ++ rest) = rest := (skip_append alsoSpaces rest).trans (skip_of_solid stops.solid)
  rw [item?, start, found]
  exact congrArg (fun text => some (value, text)) stop

theorem member?_append {read : Text → Option (Value × Text)} {name before first between second rest : Text}
    {value : Value} (spaces : Spaces before) (own : InQuotes name first) (alsoSpaces : Spaces between)
    (found : item? read (second ++ rest) = some (value, rest)) :
    member? read (before ++ first ++ between ++ ':' :: second ++ rest) = some ((name, value), rest) := by
  have quoted := quoted?_append own (between ++ ':' :: (second ++ rest))
  have colon : skip (between ++ ':' :: (second ++ rest)) = ':' :: (second ++ rest) := by
    rw [skip_append alsoSpaces]
    rfl
  have start : skip (before ++ first ++ between ++ ':' :: second ++ rest) = first ++ (between ++ ':' :: (second ++ rest)) := by
    obtain ⟨own⟩ := own
    simp only [List.append_assoc, List.cons_append, skip_append spaces]
    rfl
  rw [member?, start, quoted]
  simp only [colon, if_true, found]
  rfl

/-- The reader reads the texts that the grammar tells of. -/
theorem Written.reads {phrase : Phrase} {text : Text} (own : Written phrase text) : Reads phrase text := by
  -- By induction on the derivation. The brackets around a row are the two characters by which it is shorter than the
  -- list, so what the list hands on of its steps is enough for the row.
  induction own with
  | word listed =>
    intro steps rest enough _
    simp only [words, List.mem_cons, Prod.mk.injEq, List.not_mem_nil, or_false] at listed
    rcases listed with ⟨rfl, rfl⟩ | ⟨rfl, rfl⟩ | ⟨rfl, rfl⟩ <;>
      obtain ⟨steps, rfl⟩ := Nat.exists_eq_add_one_of_ne_zero (Nat.ne_of_gt (Nat.lt_of_lt_of_le (by decide) enough)) <;>
      rfl
  | number own =>
    intro steps rest enough ends
    obtain ⟨c, more, rfl, -⟩ := own.exists_cons
    obtain ⟨steps, rfl⟩ := Nat.exists_eq_add_of_le' (Nat.le_trans (Nat.le_add_left 1 _) enough)
    exact value?_number own ends steps
  | @string value _ own =>
    intro steps rest enough _
    have read := quoted?_append own rest
    obtain ⟨own⟩ := own
    obtain ⟨steps, rfl⟩ := Nat.exists_eq_add_of_le' (Nat.le_trans (Nat.le_add_left 1 _) enough)
    exact congrArg (Option.map _) read
  | noItems spaces =>
    intro steps rest enough _
    obtain ⟨steps, rfl⟩ := Nat.exists_eq_add_of_le' (Nat.le_trans (Nat.le_add_left 1 _) enough)
    rw [List.append_assoc]
    exact congrArg (Option.map _) (rows?_spaces spaces (by decide) rest)
  | list own ih =>
    intro steps rest enough _
    obtain ⟨steps, rfl⟩ := Nat.exists_eq_add_of_le' (Nat.le_trans (Nat.le_add_left 1 _) enough)
    rw [List.append_assoc]
    refine congrArg (Option.map _) (rows?_row own.opens (.inl rfl) fun count => ih steps count rest ?_)
    simp at enough
    omega
  | noMembers spaces =>
    intro steps rest enough _
    obtain ⟨steps, rfl⟩ := Nat.exists_eq_add_of_le' (Nat.le_trans (Nat.le_add_left 1 _) enough)
    rw [List.append_assoc]
    exact congrArg (Option.map _) (rows?_spaces spaces (by decide) rest)
  | object own ih =>
    intro steps rest enough _
    obtain ⟨steps, rfl⟩ := Nat.exists_eq_add_of_le' (Nat.le_trans (Nat.le_add_left 1 _) enough)
    rw [List.append_assoc]
    refine congrArg (Option.map _) (rows?_row own.opens (.inr rfl) fun count => ih steps count rest ?_)
    simp at enough
    omega
  | @item value before text behind spaces own alsoSpaces ih =>
    intro steps rest enough stops
    have found := ih steps (behind ++ rest) (by simp at enough; omega) (stops.ends_append alsoSpaces)
    exact item?_append spaces own alsoSpaces stops found
  | member spaces own alsoSpaces _ ih =>
    intro steps rest enough stops
    exact member?_append spaces own alsoSpaces (ih steps rest (by simp at enough; omega) stops)
  | lastItem own ih =>
    intro steps count rest enough many
    exact row?_last own.opens (ih steps _ enough (by simp [Stops])) (by decide) many
  | lastMember own ih =>
    intro steps count rest enough many
    exact row?_last own.opens (ih steps _ enough (by simp [Stops])) (by decide) many
  | moreItems _ _ ih ihMore =>
    intro steps count rest enough many
    simp only [List.length_append, List.length_cons] at enough
    exact row?_more (ih steps _ (by omega) (by simp [Stops])) (fun count => ihMore steps count rest (by omega)) many
  | moreMembers _ _ ih ihMore =>
    intro steps count rest enough many
    simp only [List.length_append, List.length_cons] at enough
    exact row?_more (ih steps _ (by omega) (by simp [Stops])) (fun count => ihMore steps count rest (by omega)) many

/-- The reader finds a value just where the grammar gives one, and it finds that one. -/
theorem parse?_eq_some_iff {text : Text} {value : Value} : parse? text = some value ↔ Written (.item value) text := by
  constructor
  · intro read
    rw [parse?] at read
    split at read
    · next found =>
      cases read
      obtain ⟨front, same, own⟩ := item_of_item? value_of_value? found
      rw [same, List.append_nil]
      exact own
    · cases read
  · intro own
    have read := own.reads text.length [] (Nat.le_refl _) fun _ head => (Option.not_mem_none _ head).elim
    rw [List.append_nil] at read
    rw [parse?, read]

/-- A text has one value at most. -/
theorem Written.unique {text : Text} {value other : Value} (own : Written (.item value) text)
    (also : Written (.item other) text) : other = value := by
  rw [← parse?_eq_some_iff] at own also
  exact Option.some.inj (also.symm.trans own)

end PatternLint.Json.Standard
