import PatternLint.Text.Basic

/-!
# Lines and columns

A line is its text and its number, from one. Lines that are blank or a comment hold nothing to check.

A place in a text is given by the number of bytes before it in UTF-8. Its column counts characters, from
one. An offset that lies inside a character or past the end has column one.
-/
namespace PatternLint

/-- The mark of a comment, which reaches to the end of its line. -/
def commentMark : Text := ['/', '/']

/-- A line of a source. -/
structure Line where
  /-- The number of the line, from one. -/
  number : Nat
  /-- The text without its line break. -/
  text : Text
  deriving Repr, DecidableEq

/-- Whether a line is blank, or its first word starts a comment. -/
def Line.isSkipped (line : Line) : Bool := line.text.trimLeft.isEmpty || commentMark.isPrefixOf line.text.trimLeft

def Line.ofSource (source : Text) : List Line := source.lines.mapIdx fun index text => ⟨index + 1, text⟩

/-! ### Columns -/

namespace Text

def byteLength : Text → Nat
  | [] => 0
  | c :: text => c.utf8Size + byteLength text

/-- How many characters lie before a byte offset, if it is the offset of a character or of the end. -/
def charactersBefore? : Text → Nat → Option Nat
  | _, 0 => some 0
  | [], _ + 1 => none
  | c :: text, offset + 1 =>
    if c.utf8Size ≤ offset + 1 then (charactersBefore? text (offset + 1 - c.utf8Size)).map (· + 1) else none

/-- The column of a byte offset: one more than the number of characters before it, and one for an offset
    that no character starts at. -/
def columnAt (text : Text) (offset : Nat) : Nat :=
  match charactersBefore? text offset with
  | some count => count + 1
  | none => 1

theorem length_le_byteLength (text : Text) : text.length ≤ byteLength text := by
  induction text with
  | nil => exact Nat.le_refl 0
  | cons c text ih =>
    have positive : 0 < c.utf8Size := Char.utf8Size_pos c
    rw [List.length_cons, byteLength]
    omega

/-- The offset of what follows a text lies behind as many characters as the text has. -/
theorem charactersBefore?_byteLength (before after : Text) :
    charactersBefore? (before ++ after) (byteLength before) = some before.length := by
  induction before with
  | nil => cases after <;> simp [byteLength, charactersBefore?]
  | cons c before ih =>
    have positive : 0 < c.utf8Size := Char.utf8Size_pos c
    have total : byteLength (c :: before) = c.utf8Size + byteLength before := by simp [byteLength]
    obtain ⟨offset, is⟩ : ∃ offset, c.utf8Size + byteLength before = offset + 1 :=
      ⟨c.utf8Size + byteLength before - 1, by omega⟩
    rw [total, is, List.cons_append, charactersBefore?, ← is]
    simp [ih]

/-- The column of what follows a text is one more than the length of the text. -/
theorem columnAt_byteLength (before after : Text) :
    columnAt (before ++ after) (byteLength before) = before.length + 1 := by
  simp [columnAt, charactersBefore?_byteLength]

end Text
end PatternLint
