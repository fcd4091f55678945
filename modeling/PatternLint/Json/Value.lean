import PatternLint.Text.Basic

/-!
# JSON

The values of JSON that reports are made of, and their text: indented by two blanks a level, one element a
line, an empty list or object in one piece, and only those characters escaped that have to be.
-/
namespace PatternLint

/-- A value of JSON without null and fractions. -/
inductive Json where
  | bool (value : Bool)
  | nat (value : Nat)
  | string (value : Text)
  | list (items : List Json)
  | object (members : List (Text × Json))
  deriving Repr

namespace Json

def hexDigit (n : Nat) : Char := if n < 10 then Char.ofNat ('0'.toNat + n) else Char.ofNat ('a'.toNat + (n - 10))

/-- A character inside a string: quotes, backslashes and control characters are escaped. -/
def escape (c : Char) : Text :=
  if c = '"' then ['\\', '"']
  else if c = '\\' then ['\\', '\\']
  else if c = '\x08' then ['\\', 'b']
  else if c = '\x0c' then ['\\', 'f']
  else if c = '\n' then ['\\', 'n']
  else if c = '\r' then ['\\', 'r']
  else if c = '\t' then ['\\', 't']
  else if c.toNat < 0x20 then ['\\', 'u', '0', '0', hexDigit (c.toNat / 16), hexDigit (c.toNat % 16)]
  else [c]

def quote (text : Text) : Text := '"' :: text.flatMap escape ++ ['"']

def newLine (level : Nat) : Text := '\n' :: List.replicate (2 * level) ' '

/-- Items between delimiters, each on a line of the next level. -/
def block (opener closer : Char) (level : Nat) (items : List Text) : Text :=
  if items.isEmpty then [opener, closer]
  else
    opener :: newLine (level + 1) ++ List.intercalate (',' :: newLine (level + 1)) items ++ newLine level ++ [closer]

mutual

def textAt (level : Nat) : Json → Text
  | bool value => if value then "true".toList else "false".toList
  | nat value => Text.ofNat value
  | string value => quote value
  | list items => block '[' ']' level (itemTexts (level + 1) items)
  | object members => block '\x7b' '\x7d' level (memberTexts (level + 1) members)

def itemTexts (level : Nat) : List Json → List Text
  | [] => []
  | item :: items => textAt level item :: itemTexts level items

/-- The texts of the members of an object: name, colon and value. -/
def memberTexts (level : Nat) : List (Text × Json) → List Text
  | [] => []
  | (name, value) :: members => (quote name ++ ':' :: ' ' :: textAt level value) :: memberTexts level members

end

def toText (value : Json) : Text := textAt 0 value

end Json
end PatternLint
