import PatternLint.Text.Basic

/-!
# Styles

Colours and weight of text in a terminal. A style is a code in front of the text and one behind it that ends
what the first began.
-/
namespace PatternLint

/-- A style of text. -/
inductive Style where
  | red | yellow | bold
  deriving Repr, DecidableEq

namespace Style

def sequence (number : Nat) : Text := '\x1b' :: '[' :: Text.ofNat number ++ ['m']

def begins : Style → Text
  | red => sequence 31
  | yellow => sequence 33
  | bold => sequence 1

def ends : Style → Text
  | red | yellow => sequence 39
  | bold => sequence 0

/-- A text in a style, if colours are wanted. -/
def apply (style : Style) (color : Bool) (text : Text) : Text :=
  if color then style.begins ++ text ++ style.ends else text

end Style
end PatternLint
