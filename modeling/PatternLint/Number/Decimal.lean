import PatternLint.Text.Basic

/-!
# Decimals

Unsigned decimal numerals: a coefficient and the number of its digits behind the point. They are read from
digits with at most one point and at least one digit, and written without superfluous zeros.
-/
namespace PatternLint

/-- The number `coefficient / 10 ^ places`. -/
structure Decimal where
  /-- All digits, as one number. -/
  coefficient : Nat
  /-- How many of the digits stand behind the point. -/
  places : Nat
  deriving Repr, DecidableEq

namespace Decimal

def ofDigits (digits : Text) : Nat := digits.foldl (fun value c => 10 * value + (c.toNat - '0'.toNat)) 0

/-- Reads a numeral: digits with at most one point among them, and at least one digit. -/
def ofText? (text : Text) : Option Decimal :=
  let whole := text.takeWhile Char.isDigit
  match text.dropWhile Char.isDigit with
  | [] => if whole.isEmpty then none else some ⟨ofDigits whole, 0⟩
  | point :: fraction =>
    if point = '.' && fraction.all Char.isDigit && !(whole.isEmpty && fraction.isEmpty) then
      some ⟨ofDigits (whole ++ fraction), fraction.length⟩
    else none

/-- The digits behind the point, filled up with zeros on the left, without zeros at the end. -/
def fractionDigits (decimal : Decimal) : Text :=
  let digits := Text.ofNat (decimal.coefficient % Nat.pow 10 decimal.places)
  let padded := List.replicate (decimal.places - digits.length) '0' ++ digits
  if decimal.places = 0 then [] else (padded.reverse.dropWhile (· = '0')).reverse

/-- A decimal in positional notation, with a point only before digits. -/
def toText (decimal : Decimal) : Text :=
  let whole := Text.ofNat (decimal.coefficient / Nat.pow 10 decimal.places)
  match decimal.fractionDigits with
  | [] => whole
  | digit :: digits => whole ++ '.' :: digit :: digits

end Decimal
end PatternLint
