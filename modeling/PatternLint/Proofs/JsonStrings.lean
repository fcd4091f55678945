import PatternLint.Text.Escaped
import PatternLint.Text.Reader

/-!
# Strings of JSON

The ways to write each character between quotes (`Spells`), as itself, by a letter behind a backslash, or by its code,
for which characters beyond the first sixteen bits need two escapes. A reader finds the characters again, in whatever way
they are written (`quoted?_append`), and takes nothing else for a string (`inQuotes_of_quoted?`).
-/
namespace PatternLint.Json.Standard

/-! ### The grammar -/

/-- The character that a letter behind a backslash stands for. -/
def escaped? (letter : Char) : Option Char :=
  if letter = '"' ∨ letter = '\\' ∨ letter = '/' then some letter else if letter = 'b' then some '\x08'
  else if letter = 'f' then some '\x0c' else if letter = 'n' then some '\n' else if letter = 'r' then some '\r'
  else if letter = 't' then some '\t' else none

/-- The number that four hexadecimal digits denote. -/
def code? (digits : Text) : Option Nat :=
  if digits.length = 4 then (digits.mapM Text.hexValue?).map (·.foldl (fun code digit => 16 * code + digit) 0) else none

/-- The character that two surrogates stand for. -/
def paired? (high low : Nat) : Option Char :=
  if 0xd800 ≤ high ∧ high < 0xdc00 ∧ 0xdc00 ≤ low ∧ low < 0xe000 then
    Text.charOfCode? (0x10000 + 0x400 * (high - 0xd800) + (low - 0xdc00))
  else none

/-- The ways to write a character in a string. -/
inductive Spells : Char → Text → Prop
  | plain {c : Char} : c ≠ '"' → c ≠ '\\' → 0x20 ≤ c.toNat → Spells c [c]
  | short {letter c : Char} : escaped? letter = some c → Spells c ['\\', letter]
  | code {digits : Text} {code : Nat} {c : Char} : code? digits = some code → Text.charOfCode? code = some c →
      Spells c ('\\' :: 'u' :: digits)
  | pair {first second : Text} {high low : Nat} {c : Char} : code? first = some high → code? second = some low →
      paired? high low = some c → Spells c ('\\' :: 'u' :: first ++ '\\' :: 'u' :: second)

/-- What stands between the quotes of a string. -/
inductive Inner : Text → Text → Prop
  | nil : Inner [] []
  | cons {c : Char} {value front text : Text} : Spells c front → Inner value text → Inner (c :: value) (front ++ text)

inductive InQuotes : Text → Text → Prop
  | mk {value text : Text} : Inner value text → InQuotes value ('"' :: text ++ ['"'])

/-! ### The reader -/

/-- The character whose code the digits of an escape give, or those of two, and the text behind. -/
def coded? (text : Text) : Option (Char × Text) :=
  match code? (text.take 4) with
  | none => none
  | some code =>
    match Text.charOfCode? code with
    | some c => some (c, text.drop 4)
    | none =>
      match Reader.literal ['\\', 'u'] (text.drop 4) with
      | none => none
      | some text =>
        match code? (text.take 4) with
        | none => none
        | some low => (paired? code low).map fun c => (c, text.drop 4)

/-- The character of an escape behind its backslash, and the text behind. -/
def escape? : Text → Option (Char × Text)
  | [] => none
  | letter :: text => if letter = 'u' then coded? text else (escaped? letter).map fun c => (c, text)

/-- The character that a text inside a string starts with, and the text behind it. -/
def character? : Text → Option (Char × Text)
  | [] => none
  | c :: text => if c = '\\' then escape? text else if c = '"' ∨ c.toNat < 0x20 then none else some (c, text)

/-- A string behind its opening quote, and the text behind its closing one; `steps` bounds the number of characters. -/
def inner? : (steps : Nat) → Text → Option (Text × Text)
  | 0, _ => none
  | _, [] => none
  | steps + 1, c :: text =>
    if c = '"' then some ([], text)
    else
      match character? (c :: text) with
      | none => none
      | some (d, rest) => (inner? steps rest).map fun (value, rest) => (d :: value, rest)

def quoted? : Text → Option (Text × Text)
  | '"' :: text => inner? (text.length + 1) text
  | _ => none

/-! ### Characters -/

theorem length_of_code? {digits : Text} {code : Nat} (read : code? digits = some code) : digits.length = 4 := by
  rw [code?] at read
  split at read
  · assumption
  · cases read

theorem coded?_of_code {digits rest : Text} {code : Nat} {c : Char} (read : code? digits = some code)
    (valid : Text.charOfCode? code = some c) : coded? (digits ++ rest) = some (c, rest) := by
  have four : digits.length = 4 := length_of_code? read
  rw [coded?, ← four, List.take_left, read]
  dsimp only
  rw [valid, List.drop_left]

theorem charOfCode?_of_paired? {high low : Nat} {c : Char} (paired : paired? high low = some c) :
    Text.charOfCode? high = none := by
  rw [paired?] at paired
  split at paired
  · next range =>
    rw [Text.charOfCode?, if_neg]
    rintro (below | ⟨above, -⟩) <;> omega
  · cases paired

theorem coded?_of_pair {first second rest : Text} {high low : Nat} {c : Char} (readHigh : code? first = some high)
    (readLow : code? second = some low) (paired : paired? high low = some c) :
    coded? (first ++ '\\' :: 'u' :: second ++ rest) = some (c, rest) := by
  have four : first.length = 4 := length_of_code? readHigh
  have alsoFour : second.length = 4 := length_of_code? readLow
  rw [coded?, List.append_assoc, ← four, List.take_left, readHigh]
  dsimp only
  rw [charOfCode?_of_paired? paired, List.drop_left, four, ← alsoFour]
  simp [Reader.literal, readLow, paired]

theorem spells_of_coded? {text rest : Text} {c : Char} (read : coded? text = some (c, rest)) :
    ∃ front, text = front ++ rest ∧ Spells c ('\\' :: 'u' :: front) := by
  have whole := List.take_append_drop 4 text
  rw [coded?] at read
  split at read
  · cases read
  · next code first =>
    split at read
    · next valid =>
      cases read
      exact ⟨text.take 4, whole.symm, .code first valid⟩
    · split at read
      · cases read
      · next behind found =>
        rw [Reader.literal_eq_some_iff] at found
        split at read
        · cases read
        · next low second =>
          obtain ⟨d, paired, same⟩ := Option.map_eq_some_iff.mp read
          cases same
          refine ⟨text.take 4 ++ '\\' :: 'u' :: behind.take 4, ?_, .pair first second paired⟩
          have last := List.take_append_drop 4 behind
          rw [List.append_assoc, List.cons_append, List.cons_append, last]
          rw [found] at whole
          exact whole.symm

theorem character?_append {c : Char} {front : Text} (own : Spells c front) (rest : Text) :
    character? (front ++ rest) = some (c, rest) := by
  cases own with
  | plain noQuote noBackslash noControl =>
    rw [List.singleton_append, character?, if_neg noBackslash, if_neg (by simp [noQuote, noControl])]
  | @short letter _ own =>
    have noCode : letter ≠ 'u' := by
      rintro rfl
      cases own
    rw [List.cons_append, List.singleton_append, character?, if_pos rfl, escape?, if_neg noCode, own]
    rfl
  | code read valid => exact coded?_of_code read valid
  | pair high low paired => exact coded?_of_pair high low paired

theorem spells_of_escape? {text rest : Text} {c : Char} (read : escape? text = some (c, rest)) :
    ∃ front, text = front ++ rest ∧ Spells c ('\\' :: front) := by
  cases text with
  | nil => cases read
  | cons letter text =>
    rw [escape?] at read
    split at read
    · next code =>
      subst code
      obtain ⟨front, rfl, spells⟩ := spells_of_coded? read
      exact ⟨'u' :: front, rfl, spells⟩
    · obtain ⟨d, found, same⟩ := Option.map_eq_some_iff.mp read
      cases same
      exact ⟨[letter], rfl, .short found⟩

theorem spells_of_character? {text rest : Text} {c : Char} (read : character? text = some (c, rest)) :
    ∃ front, text = front ++ rest ∧ Spells c front := by
  cases text with
  | nil => cases read
  | cons d text =>
    rw [character?] at read
    split at read
    · next backslash =>
      subst backslash
      obtain ⟨front, rfl, spells⟩ := spells_of_escape? read
      exact ⟨'\\' :: front, rfl, spells⟩
    · next noBackslash =>
      split at read
      · cases read
      · next plain =>
        cases read
        rw [not_or, Nat.not_lt] at plain
        exact ⟨[_], rfl, .plain plain.1 noBackslash plain.2⟩

theorem Spells.exists_cons {c : Char} {front : Text} (own : Spells c front) : ∃ d more, front = d :: more ∧ d ≠ '"' := by
  cases own with
  | plain noQuote => exact ⟨c, [], rfl, noQuote⟩
  | short => exact ⟨_, _, rfl, by decide⟩
  | code => exact ⟨_, _, rfl, by decide⟩
  | pair => exact ⟨_, _, rfl, by decide⟩

/-! ### Strings -/

theorem inner?_append {value text : Text} (own : Inner value text) (rest : Text) {steps : Nat}
    (enough : text.length < steps) : inner? steps (text ++ '"' :: rest) = some (value, rest) := by
  induction own generalizing steps with
  | nil =>
    obtain ⟨steps, rfl⟩ := Nat.exists_eq_succ_of_ne_zero (Nat.ne_of_gt enough)
    rfl
  | @cons c value front text spells _ ih =>
    obtain ⟨steps, rfl⟩ := Nat.exists_eq_succ_of_ne_zero (Nat.ne_of_gt (Nat.zero_lt_of_lt enough))
    obtain ⟨d, more, rfl, noQuote⟩ := spells.exists_cons
    have start := character?_append spells (text ++ '"' :: rest)
    rw [List.cons_append] at start
    rw [List.append_assoc, List.cons_append, inner?, if_neg noQuote, start]
    dsimp only
    rw [ih (by simp at enough; omega)]
    rfl

theorem inner_of_inner? {steps : Nat} {text value rest : Text} (read : inner? steps text = some (value, rest)) :
    ∃ front, text = front ++ '"' :: rest ∧ Inner value front := by
  induction steps generalizing text value with
  | zero => cases read
  | succ steps ih =>
    cases text with
    | nil => cases read
    | cons c text =>
      rw [inner?] at read
      split at read
      · next quote =>
        cases read
        exact ⟨[], by rw [quote]; rfl, .nil⟩
      · split at read
        · cases read
        · next d behind found =>
          obtain ⟨front, whole, spells⟩ := spells_of_character? found
          obtain ⟨pair, more, same⟩ := Option.map_eq_some_iff.mp read
          cases same
          obtain ⟨last, rfl, own⟩ := ih more
          exact ⟨front ++ last, by rw [whole, List.append_assoc], .cons spells own⟩

theorem quoted?_append {value text : Text} (own : InQuotes value text) (rest : Text) :
    quoted? (text ++ rest) = some (value, rest) := by
  obtain ⟨own⟩ := own
  rw [List.append_assoc, List.cons_append, quoted?]
  exact inner?_append own rest (by simp only [List.length_append, List.length_cons]; omega)

/-- Two escapes are needed for a character beyond the first sixteen bits. -/
example : quoted? "\"\\ud83c\\udfb5\"".toList = some (['🎵'], []) := by decide

theorem inQuotes_of_quoted? {text value rest : Text} (read : quoted? text = some (value, rest)) :
    ∃ front, text = front ++ rest ∧ InQuotes value front := by
  rw [quoted?.eq_def] at read
  split at read
  · obtain ⟨front, rfl, own⟩ := inner_of_inner? read
    exact ⟨'"' :: front ++ ['"'], by simp, .mk own⟩
  · cases read

end PatternLint.Json.Standard
