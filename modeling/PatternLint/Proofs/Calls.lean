import Mathlib.Data.Nat.Find
import PatternLint.Language.Sandbox
import PatternLint.Proofs.Text

/-!
# Forms of calls and where they stand in a text

A form says which texts are captured as what. A pattern spells a form when it reads just the parts of that form
off the front of a text (`Pattern.Spells`). Then it finds the leftmost place where the form stands
(`find?_eq_some_iff_leftmost`) and finds nothing only where the form stands nowhere (`find?_eq_none_iff`). The
readers of calls spell what the calls look like: `opening_iff`, `call_iff` and `quoted_readsArgument`.
-/
namespace PatternLint

variable {α : Type}

/-! ### Places of a form -/

/-- A part of a form that stands in a text where `free` lets it start after the character before it. -/
structure Stands (free : Option Char → Prop) (form : α → Text → Prop) (text : Text) (o : Occurrence α) : Prop where
  mayStart : free o.before.getLast?
  parts : ∃ part, form o.captured part ∧ text = o.before ++ part ++ o.after

theorem Stands.exists_rest {free : Option Char → Prop} {form : α → Text → Prop} {text : Text} {o : Occurrence α}
    (stands : Stands free form text o) : ∃ rest, text = o.before ++ rest := by
  obtain ⟨part, _, parts⟩ := stands.parts
  exact ⟨part ++ o.after, by rw [parts, List.append_assoc]⟩

theorem Stands.columnAt_eq {free : Option Char → Prop} {form : α → Text → Prop} {text : Text} {o : Occurrence α}
    (stands : Stands free form text o) : text.columnAt (Text.byteLength o.before) = o.before.length + 1 := by
  obtain ⟨rest, parts⟩ := stands.exists_rest
  rw [parts, Text.columnAt_byteLength]

/-- A form stands at a place of a text and nowhere to its left. -/
def Leftmost (free : Option Char → Prop) (form : α → Text → Prop) (text : Text) (o : Occurrence α) : Prop :=
  Stands free form text o ∧ ∀ other, Stands free form text other → o.before.length ≤ other.before.length

theorem Leftmost.length_eq {free : Option Char → Prop} {form : α → Text → Prop} {text : Text} {o other : Occurrence α}
    (first : Leftmost free form text o) (second : Leftmost free form text other) :
    o.before.length = other.before.length :=
  Nat.le_antisymm (first.2 other second.1) (second.2 o first.1)

/-- Some part of a text has a form. -/
def Contains (form : Text → Prop) (text : Text) : Prop :=
  ∃ before part after, form part ∧ text = before ++ part ++ after

theorem contains_cons_iff {form : Text → Prop} {c : Char} {text : Text} :
    Contains form (c :: text) ↔ (∃ part after, form part ∧ c :: text = part ++ after) ∨ Contains form text := by
  constructor
  · rintro ⟨before, part, after, ofForm, parts⟩
    cases before with
    | nil => exact .inl ⟨part, after, ofForm, parts⟩
    | cons d before =>
      obtain ⟨_, parts⟩ := List.cons.inj parts
      exact .inr ⟨before, part, after, ofForm, parts⟩
  · rintro (⟨part, after, ofForm, parts⟩ | ⟨before, part, after, ofForm, rfl⟩)
    · exact ⟨[], part, after, ofForm, parts⟩
    · exact ⟨c :: before, part, after, ofForm, rfl⟩

namespace Pattern

/-- A pattern reads just the parts of a form, and may start just where `free` lets it. -/
structure Spells (pattern : Pattern α) (free : Option Char → Prop) (form : α → Text → Prop) : Prop where
  mayFollow_iff : ∀ last, pattern.mayFollow last = true ↔ free last
  read_iff : ∀ {text captured after},
    pattern.read text = some (captured, after) ↔ ∃ part, form captured part ∧ text = part ++ after

variable {pattern : Pattern α} {free : Option Char → Prop} {form : α → Text → Prop}

theorem readAfter_iff (spells : pattern.Spells free form) {last : Option Char} {text after : Text} {captured : α} :
    pattern.readAfter last text = some (captured, after) ↔
      free last ∧ ∃ part, form captured part ∧ text = part ++ after := by
  unfold readAfter
  by_cases may : pattern.mayFollow last = true
  · rw [if_pos may, spells.read_iff]
    exact (and_iff_right ((spells.mayFollow_iff last).mp may)).symm
  · rw [if_neg may]
    simp [mt (spells.mayFollow_iff last).mpr may]

theorem readAfter_getLast?_iff (spells : pattern.Spells free form) {text rest : Text} {o : Occurrence α}
    (cut : text = o.before ++ rest) :
    pattern.readAfter o.before.getLast? rest = some (o.captured, o.after) ↔ Stands free form text o := by
  rw [readAfter_iff spells]
  constructor
  · rintro ⟨may, part, ofForm, rfl⟩
    exact ⟨may, part, ofForm, by rw [cut, List.append_assoc]⟩
  · rintro ⟨may, part, ofForm, parts⟩
    rw [cut, List.append_assoc] at parts
    exact ⟨may, part, ofForm, List.append_cancel_left parts⟩

theorem find?_eq_some_iff_leftmost (spells : pattern.Spells free form) (text : Text) (o : Occurrence α) :
    pattern.find? text = some o ↔ Leftmost free form text o := by
  rw [find?_eq_some_iff]
  constructor
  · rintro ⟨rest, cut, result, first⟩
    refine ⟨(readAfter_getLast?_iff spells cut).mp result, fun other stands => ?_⟩
    by_contra further
    obtain ⟨part, _, parts⟩ := stands.parts
    rw [List.append_assoc] at parts
    have nothing := first other.before _ parts (Nat.lt_of_not_le further)
    rw [(readAfter_getLast?_iff spells parts).mpr stands] at nothing
    cases nothing
  · rintro ⟨stands, first⟩
    obtain ⟨part, _, parts⟩ := stands.parts
    rw [List.append_assoc] at parts
    refine ⟨_, parts, (readAfter_getLast?_iff spells parts).mpr stands, fun left right cut shorter => ?_⟩
    cases result : pattern.readAfter left.getLast? right with
    | none => rfl
    | some pair =>
      obtain ⟨captured, after⟩ := pair
      have there : Stands free form text ⟨left, captured, after⟩ := (readAfter_getLast?_iff spells cut).mp result
      exact absurd (first _ there) (Nat.not_le_of_lt shorter)

/-- There is one leftmost place of a form that a pattern spells. -/
theorem Spells.leftmost_unique (spells : pattern.Spells free form) {text : Text} {o other : Occurrence α}
    (first : Leftmost free form text o) (second : Leftmost free form text other) : o = other :=
  Option.some.inj (((find?_eq_some_iff_leftmost spells text o).mpr first).symm.trans
    ((find?_eq_some_iff_leftmost spells text other).mpr second))

theorem exists_leftmost {text : Text} {o : Occurrence α} (stands : Stands free form text o) :
    ∃ first, Leftmost free form text first := by
  classical
  -- the shortest text before a place is that of the leftmost one
  have some_length : ∃ n, ∃ o, Stands free form text o ∧ o.before.length = n := ⟨_, o, stands, rfl⟩
  obtain ⟨first, stands, shortest⟩ := Nat.find_spec some_length
  exact ⟨first, stands, fun other there => shortest ▸ Nat.find_min' some_length ⟨other, there, rfl⟩⟩

theorem find?_eq_none_iff (spells : pattern.Spells free form) (text : Text) :
    pattern.find? text = none ↔ ∀ o, ¬ Stands free form text o := by
  constructor
  · intro nothing o stands
    obtain ⟨first, leftmost⟩ := exists_leftmost stands
    rw [(find?_eq_some_iff_leftmost spells text first).mpr leftmost] at nothing
    cases nothing
  · intro nowhere
    cases result : pattern.find? text with
    | none => rfl
    | some o => exact absurd ((find?_eq_some_iff_leftmost spells text o).mp result).1 (nowhere o)

/-- A pattern that may start anywhere occurs in the texts that contain its form. -/
theorem occursIn_iff_contains {pattern : Pattern Unit} {form : Text → Prop}
    (spells : pattern.Spells (fun _ => True) (fun _ => form)) (text : Text) :
    pattern.occursIn text = true ↔ Contains form text := by
  rw [occursIn, ← Bool.not_eq_false, Option.isSome_eq_false_iff, Option.isNone_iff_eq_none, find?_eq_none_iff spells,
    not_forall_not]
  constructor
  · rintro ⟨o, stands⟩
    obtain ⟨part, ofForm, parts⟩ := stands.parts
    exact ⟨o.before, part, o.after, ofForm, parts⟩
  · rintro ⟨before, part, after, ofForm, parts⟩
    exact ⟨⟨before, (), after⟩, trivial, part, ofForm, parts⟩

end Pattern

/-! ### What calls look like -/

/-- A run of blanks, possibly empty. -/
def Gap (gap : Text) : Prop := ∀ c ∈ gap, isBlank c = true

/-- A text that starts with a gap starts with a blank or with what stands behind the gap. -/
theorem Gap.head_cases {gap rest : Text} {c d : Char} (blank : Gap gap) (head : d ∈ (gap ++ c :: rest).head?) :
    isBlank d = true ∨ d = c := by
  cases gap with
  | nil =>
    cases head
    exact .inr rfl
  | cons e gap =>
    cases head
    exact .inl (blank d List.mem_cons_self)

/-- A word, a gap and an opening parenthesis. -/
def Opening (word part : Text) : Prop := ∃ gap, Gap gap ∧ part = word ++ gap ++ ['(']

/-- A word called on one argument, with gaps anywhere between the parts. -/
def Call (word : Text) (argument : α → Text → Prop) (value : α) (part : Text) : Prop :=
  ∃ opened gap given gap', Opening word opened ∧ Gap gap ∧ argument value given ∧ Gap gap' ∧
    part = opened ++ gap ++ given ++ gap' ++ [')']

/-- A quoted text that is not empty and holds no quote; its two quotes need not be alike. -/
def Quoted (value given : Text) : Prop :=
  ∃ start stop, Reader.isQuote start = true ∧ Reader.isQuote stop = true ∧ value ≠ [] ∧
    (∀ c ∈ value, Reader.isQuote c = false) ∧ given = start :: value ++ [stop]

namespace Reader

theorem opening_iff {word text rest : Text} :
    opening word text = some rest ↔ ∃ part, Opening word part ∧ text = part ++ rest := by
  rw [opening_eq_some_iff]
  constructor
  · rintro ⟨tail, rfl, trimmed⟩
    obtain ⟨gap, blank, rfl⟩ := (Text.trimLeft_eq_cons_iff (by decide)).mp trimmed
    exact ⟨word ++ gap ++ ['('], ⟨gap, blank, rfl⟩, by simp⟩
  · rintro ⟨part, ⟨gap, blank, rfl⟩, rfl⟩
    exact ⟨gap ++ '(' :: rest, by simp, (Text.trimLeft_eq_cons_iff (by decide)).mpr ⟨gap, blank, rfl⟩⟩

/-- A reader of arguments takes just what has a form when a gap and a closing parenthesis follow. -/
structure ReadsArgument (argument : Text → Option (α × Text)) (form : α → Text → Prop) : Prop where
  sound : ∀ {text value rest}, argument text = some (value, rest) → ∃ given, form value given ∧ text = given ++ rest
  complete : ∀ {value given tail after}, form value given → tail.trimLeft = ')' :: after →
    argument (given ++ tail) = some (value, tail)
  solid : ∀ {value given}, form value given → ∃ c more, given = c :: more ∧ isBlank c = false

theorem call_iff {word text after : Text} {argument : Text → Option (α × Text)} {form : α → Text → Prop} {value : α}
    (reads : ReadsArgument argument form) :
    call word argument text = some (value, after) ↔ ∃ part, Call word form value part ∧ text = part ++ after := by
  rw [call_eq_some_iff]
  constructor
  · rintro ⟨inner, tail, opens, read, closed⟩
    obtain ⟨opened, opening, rfl⟩ := opening_iff.mp opens
    obtain ⟨given, ofForm, trimmed⟩ := reads.sound read
    obtain ⟨gap', blank', rfl⟩ := (Text.trimLeft_eq_cons_iff (by decide)).mp closed
    obtain ⟨c, more, rfl, solid⟩ := reads.solid ofForm
    obtain ⟨gap, blank, rfl⟩ := (Text.trimLeft_eq_cons_iff solid).mp trimmed
    exact ⟨_, ⟨opened, gap, c :: more, gap', opening, blank, ofForm, blank', rfl⟩, by simp⟩
  · rintro ⟨_, ⟨opened, gap, given, gap', opening, blank, ofForm, blank', rfl⟩, rfl⟩
    have closed : (gap' ++ ')' :: after).trimLeft = ')' :: after :=
      (Text.trimLeft_eq_cons_iff (by decide)).mpr ⟨gap', blank', rfl⟩
    have read := reads.complete ofForm closed
    obtain ⟨c, more, rfl, solid⟩ := reads.solid ofForm
    refine ⟨gap ++ c :: (more ++ gap' ++ ')' :: after), gap' ++ ')' :: after, ?_, ?_, closed⟩
    · exact opening_iff.mpr ⟨opened, opening, by simp⟩
    · rw [Text.trimLeft_append blank, Text.trimLeft_cons solid]
      simpa using read

theorem isBlank_of_isQuote {c : Char} (quote : isQuote c = true) : isBlank c = false := by
  rcases (by simpa [isQuote] using quote : c = '"' ∨ c = '\'') with rfl | rfl <;> decide

theorem quoted_eq_some_iff {text value rest : Text} :
    quoted text = some (value, rest) ↔ ∃ given, Quoted value given ∧ text = given ++ rest := by
  constructor
  · intro read
    unfold quoted at read
    split at read
    · cases read
    · next start text =>
      split at read
      · next opens =>
        split at read
        · cases read
        · cases read
        · next d inner stop rest' taken dropped =>
          simp only [Option.some.injEq, Prod.mk.injEq] at read
          obtain ⟨rfl, rfl⟩ := read
          have plain : ∀ c ∈ d :: inner, isQuote c = false := by
            intro c member
            rw [← taken] at member
            simpa using List.mem_takeWhile_imp (p := (!isQuote ·)) member
          have closes : isQuote stop = true := by
            have := List.head?_dropWhile_not (!isQuote ·) text
            rw [dropped] at this
            simpa using this
          refine ⟨start :: (d :: inner) ++ [stop], ⟨start, stop, opens, closes, by simp, plain, rfl⟩, ?_⟩
          rw [← List.takeWhile_append_dropWhile (p := (!isQuote ·)) (l := text), taken, dropped]
          simp
      · cases read
  · rintro ⟨_, ⟨start, stop, opens, closes, some_value, plain, rfl⟩, rfl⟩
    obtain ⟨d, inner, rfl⟩ := List.exists_cons_of_ne_nil some_value
    have plain' : ∀ c ∈ d :: inner, (!isQuote c) = true := by simpa using plain
    have taken : ((d :: inner) ++ stop :: rest).takeWhile (!isQuote ·) = d :: inner := by
      rw [List.takeWhile_append_of_pos plain']
      simp [closes]
    have dropped : ((d :: inner) ++ stop :: rest).dropWhile (!isQuote ·) = stop :: rest := by
      rw [List.dropWhile_append_of_pos plain']
      simp [closes]
    have whole : start :: (d :: inner) ++ [stop] ++ rest = start :: ((d :: inner) ++ stop :: rest) := by simp
    rw [whole, quoted, if_pos opens, taken, dropped]

theorem quoted_readsArgument : ReadsArgument quoted Quoted where
  sound := quoted_eq_some_iff.mp
  complete ofForm _ := quoted_eq_some_iff.mpr ⟨_, ofForm, rfl⟩
  solid := by
    rintro value _ ⟨start, stop, opens, _, _, _, rfl⟩
    exact ⟨start, value ++ [stop], rfl, isBlank_of_isQuote opens⟩

end Reader
end PatternLint
