import PatternLint.Number.Binary64

/-!
# Shortest digits

A finite number is written with the fewest digits that read back as the number: of one digit, two digits and so
on, the two neighbours on that decimal grid are tried, the nearer first, and of two at the same distance the
upper one.
-/
namespace PatternLint.Binary64

/-- The number of decimal digits before the point of a positive number of units, less than one for a number
    below a tenth. -/
def magnitude (units : Nat) : Int := ((Text.ofNat (units * Nat.pow 10 330 / one)).length : Int) - 330

/-- The decimal `count * 10 ^ exponent`. -/
def onGrid (exponent : Int) (count : Nat) : Decimal :=
  if 0 ≤ exponent then ⟨count * Nat.pow 10 exponent.toNat, 0⟩ else ⟨count, (-exponent).toNat⟩

/-- A number of units in steps of `10 ^ exponent`, as a fraction. -/
def inSteps (exponent : Int) (units : Nat) : Nat × Nat :=
  if 0 ≤ exponent then (units, one * Nat.pow 10 exponent.toNat) else (units * Nat.pow 10 (-exponent).toNat, one)

/-- The decimal on a grid that reads back as a number, if there is one; of two, the nearer. -/
def readsBackOn? (exponent : Int) (units : Nat) : Option Decimal :=
  let (numerator, denominator) := inSteps exponent units
  let lower := onGrid exponent (numerator / denominator)
  let upper := onGrid exponent (numerator / denominator + 1)
  let preferred := if 2 * (numerator % denominator) < denominator then [lower, upper] else [upper, lower]
  preferred.find? fun decimal => nearest decimal = finite units

/-- The exact value of a number of units. -/
def exactDecimal (units : Nat) : Decimal := ⟨units * Nat.pow 5 1074, 1074⟩

/-- The decimal with the fewest digits that reads back as a number. Seventeen digits always do. -/
def shortest (units : Nat) : Decimal :=
  if units = 0 then ⟨0, 0⟩
  else
    ((List.range 17).findSome? fun (shorter : Nat) =>
      readsBackOn? (magnitude units - ((shorter : Int) + 1)) units).getD (exactDecimal units)

/-- A number in positional notation, with its shortest digits. -/
def toText : Binary64 → Text
  | finite units => (shortest units).toText
  | infinite => "inf".toList

end PatternLint.Binary64
