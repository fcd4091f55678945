import PatternLint.Text.Basic

/-!
# Escaped text

Text in which a backslash starts an escape: a letter for a character, or a letter and a fixed number of
hexadecimal digits for the character with that code.
-/
namespace PatternLint.Text

def hexValue? (c : Char) : Option Nat :=
  if c.isDigit then some (c.toNat - '0'.toNat)
  else if 'a' ≤ c ∧ c ≤ 'f' then some (c.toNat - 'a'.toNat + 10)
  else if 'A' ≤ c ∧ c ≤ 'F' then some (c.toNat - 'A'.toNat + 10)
  else none

/-- The character with a code. Surrogates and numbers beyond the last code have none. -/
def charOfCode? (code : Nat) : Option Char := if code.isValidChar then some (Char.ofNat code) else none

/-- The escapes of a format. -/
structure Escapes where
  /-- The character that a letter behind a backslash stands for. -/
  char? : Char → Option Char
  /-- How many hexadecimal digits follow a letter behind a backslash. -/
  digits? : Char → Option Nat

/-- How far an escape has been read. -/
inductive EscapeState where
  /-- No escape is open. -/
  | none
  /-- The backslash has been read. -/
  | started
  /-- More digits follow, and those before them have this value. -/
  | code (more : Nat) (value : Nat)

/-- The text without its escapes, if all of them are known and complete. -/
def unescapeFrom (escapes : Escapes) : EscapeState → Text → Option Text
  | .none, [] => some []
  | _, [] => Option.none
  | .none, c :: text =>
    if c = '\\' then unescapeFrom escapes .started text else (unescapeFrom escapes .none text).map (c :: ·)
  | .started, c :: text =>
    match escapes.digits? c, escapes.char? c with
    | some digits, _ => unescapeFrom escapes (.code digits 0) text
    | Option.none, some d => (unescapeFrom escapes .none text).map (d :: ·)
    | Option.none, Option.none => Option.none
  | .code more value, c :: text =>
    match hexValue? c with
    | Option.none => Option.none
    | some digit =>
      if more ≤ 1 then
        match charOfCode? (16 * value + digit) with
        | some d => (unescapeFrom escapes .none text).map (d :: ·)
        | Option.none => Option.none
      else unescapeFrom escapes (.code (more - 1) (16 * value + digit)) text

/-- The text without its escapes, if all of them are known and complete. -/
def unescape (escapes : Escapes) (text : Text) : Option Text := unescapeFrom escapes .none text

end PatternLint.Text
