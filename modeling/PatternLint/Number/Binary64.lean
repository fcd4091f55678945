import PatternLint.Number.Decimal

/-!
# Binary floating-point numbers

The numbers of the format binary64 that are not negative, counted in the smallest positive one, `2 ^ -1074`.
A decimal is rounded to the nearest of them, a tie to the one with an even significand, and to infinity from
half a step above the largest.
-/
namespace PatternLint

/-- A number of the format binary64 that is not negative. -/
inductive Binary64 where
  /-- A finite number, in units of `2 ^ -1074`. -/
  | finite (units : Nat)
  | infinite
  deriving Repr, DecidableEq

namespace Binary64

def precision : Nat := 53

/-- The number of units in one. -/
def one : Nat := Nat.pow 2 1074

/-- The number of units from which on a number is infinite. -/
def limit : Nat := Nat.pow 2 2098

/-- The distance between neighbouring numbers around a number of units: one as long as the significand holds
    all bits, and doubled with every further bit. -/
def spacing (units : Nat) : Nat := Nat.pow 2 (units.log2 + 1 - precision)

/-- The quotient of two numbers, rounded to the nearest integer, a tie to the even one. -/
def roundDiv (numerator denominator : Nat) : Nat :=
  let quotient := numerator / denominator
  let twice := 2 * (numerator % denominator)
  if twice < denominator then quotient
  else if denominator < twice then quotient + 1
  else quotient + quotient % 2

/-- The number nearest to a decimal. -/
def nearest (decimal : Decimal) : Binary64 :=
  let numerator := decimal.coefficient * one
  let denominator := Nat.pow 10 decimal.places
  let step := spacing (numerator / denominator)
  let units := roundDiv numerator (denominator * step) * step
  if units < limit then finite units else infinite

def below : Binary64 → Binary64 → Bool
  | finite a, finite b => a < b
  | finite _, infinite => true
  | infinite, _ => false

end Binary64
end PatternLint
