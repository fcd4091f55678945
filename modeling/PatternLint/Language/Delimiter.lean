import PatternLint.Text.Basic

/-!
# Delimiters

The quotes around literals and the three kinds of brackets.
-/
namespace PatternLint

/-- The kinds of quotes. -/
inductive Quote where
  | double | single | backtick
  deriving Repr, DecidableEq

namespace Quote

def all : List Quote := [double, single, backtick]

def char : Quote → Char
  | double => '"'
  | single => '\''
  | backtick => '\x60'

def name : Quote → Text
  | double => "double".toList
  | single => "single".toList
  | backtick => "backtick".toList

def ofChar? (c : Char) : Option Quote := all.find? fun quote => quote.char = c

end Quote

/-- The kinds of brackets. -/
inductive Bracket where
  | round | square | curly
  deriving Repr, DecidableEq

namespace Bracket

def all : List Bracket := [round, square, curly]

def opener : Bracket → Char
  | round => '('
  | square => '['
  | curly => '\x7b'

def closer : Bracket → Char
  | round => ')'
  | square => ']'
  | curly => '\x7d'

def name : Bracket → Text
  | round => "parentheses".toList
  | square => "brackets".toList
  | curly => "braces".toList

end Bracket
end PatternLint
