/-!
# Text

Text is a list of characters. `splitOn` cuts a text at every occurrence of a separator, and joining the
pieces gives the text back (`intercalate_splitOn`); no piece holds the separator (`not_mem_of_mem_splitOn`).
Blanks are the characters with the Unicode property White_Space. Lower case goes as far as ASCII can tell.
-/
namespace PatternLint

/-- Text: a list of Unicode characters. -/
abbrev Text := List Char

/-! ### Blanks -/

/-- The ranges of the Unicode property White_Space, in ascending order. Every blank of ASCII is in them, so is the
    no-break space; the zero-width space and the byte order mark are not. -/
def blankRanges : List (Nat × Nat) :=
  [(0x9, 0xD), (0x20, 0x20), (0x85, 0x85), (0xA0, 0xA0), (0x1680, 0x1680), (0x2000, 0x200A), (0x2028, 0x2029),
    (0x202F, 0x202F), (0x205F, 0x205F), (0x3000, 0x3000)]

/-- Whether a character is white space. -/
def isBlank (c : Char) : Bool := blankRanges.any fun (first, last) => first ≤ c.toNat && c.toNat ≤ last

/-- Blanks are 25 characters. -/
example : (blankRanges.map fun (first, last) => last + 1 - first).sum = 25 := by decide

example : isBlank '\u00a0' ∧ isBlank '\u3000' ∧ ¬ isBlank '\u200b' ∧ ¬ isBlank '\ufeff' ∧ ¬ isBlank '\x1c' := by
  decide

namespace Text

/-- Puts a character in front of the first word. -/
def onFirst (c : Char) : List Text → List Text
  | [] => [[c]]
  | word :: words => (c :: word) :: words

/-- The pieces of a text between the occurrences of a separator: always one more than there are occurrences. -/
def splitOn (separator : Char) (text : Text) : List Text :=
  text.foldr (fun c words => if c = separator then [] :: words else onFirst c words) [[]]

/-- The lines of a text. A line break separates lines, so the empty text has one line. -/
def lines (text : Text) : List Text := splitOn '\n' text

def unlines (lines : List Text) : Text := List.intercalate ['\n'] lines

def ofNat (n : Nat) : Text := Nat.toDigits 10 n

/-- A text without its leading blanks. -/
def trimLeft (text : Text) : Text := text.dropWhile isBlank

/-- A text filled up with blanks on the right to a width. -/
def padRight (width : Nat) (text : Text) : Text := text ++ List.replicate (width - text.length) ' '

/-! ### Lower case -/

/-- The lower case of a character, if it holds an ASCII letter, else the character itself. Such are the capitals of ASCII,
    the dotted capital I (an `i` and a combining dot) and the Kelvin sign. Of all others neither the character nor its
    lower case can make a text equal to one of ASCII letters. -/
def lowercaseChar (c : Char) : Text :=
  if c = '\u0130' then ['i', '\u0307'] else if c = '\u212a' then ['k'] else [c.toLower]

def lowercase (text : Text) : Text := text.flatMap lowercaseChar

/-! ### UTF-8 -/

/-- The text that bytes stand for, if they are well-formed UTF-8. -/
def decode? (bytes : ByteArray) : Option Text := (String.fromUTF8? bytes).map String.toList

def encode (text : Text) : ByteArray := (String.ofList text).toUTF8

/-! ### Cutting and joining -/

@[simp] theorem splitOn_nil (separator : Char) : splitOn separator [] = [[]] := rfl

theorem splitOn_cons (separator c : Char) (text : Text) :
    splitOn separator (c :: text) =
      if c = separator then [] :: splitOn separator text else onFirst c (splitOn separator text) := rfl

theorem splitOn_ne_nil (separator : Char) (text : Text) : splitOn separator text ≠ [] := by
  cases text with
  | nil => simp
  | cons c text =>
    rw [splitOn_cons]
    split
    · simp
    · cases splitOn separator text <;> simp [onFirst]

/-- Joining the pieces gives the text back. -/
theorem intercalate_splitOn (separator : Char) (text : Text) :
    List.intercalate [separator] (splitOn separator text) = text := by
  induction text with
  | nil => rfl
  | cons c text ih =>
    rw [splitOn_cons]
    cases pieces : splitOn separator text with
    | nil => exact absurd pieces (splitOn_ne_nil separator text)
    | cons word words =>
      rw [pieces] at ih
      split
      · next same => subst same; simpa [List.intercalate] using ih
      · cases words with
        | nil => simpa [List.intercalate, onFirst] using ih
        | cons next words => simpa [List.intercalate, onFirst] using ih

/-- No piece holds the separator. -/
theorem not_mem_of_mem_splitOn {separator : Char} {text word : Text} (member : word ∈ splitOn separator text) :
    separator ∉ word := by
  induction text generalizing word with
  | nil => simp at member; simp [member]
  | cons c text ih =>
    rw [splitOn_cons] at member
    split at member
    · rcases List.mem_cons.mp member with rfl | later
      · simp
      · exact ih later
    · next other =>
      cases pieces : splitOn separator text with
      | nil => exact absurd pieces (splitOn_ne_nil separator text)
      | cons first words =>
        rw [pieces, onFirst] at member
        rcases List.mem_cons.mp member with rfl | later
        · have := ih (show first ∈ splitOn separator text by simp [pieces])
          simp [this, Ne.symm other]
        · exact ih (by simp [pieces, later])

end Text
end PatternLint
