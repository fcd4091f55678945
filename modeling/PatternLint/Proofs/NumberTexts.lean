import PatternLint.Number.Shortest
import PatternLint.Proofs.Numerals

/-!
# Texts of numbers

A decimal is written with digits and at most one point, and its text has its exact value (`Decimal.exactValue_toText`):
the zeros that are left out at the end of the fraction change nothing. A number of the format is written so that it is
read back (`Rounds.toText`), for its digits are only chosen among decimals that are rounded to it, and otherwise are those
of its exact value.
-/
namespace PatternLint

/-! ### Decimals -/

namespace Decimal

theorem WrittenAs.digitsAndPoints {literal : Text} {amount : Decimal} (written : WrittenAs literal amount) :
    DigitsAndPoints literal literal := by
  have numeral {c : Char} (digit : c.isDigit = true) : Reader.isNumeral c = true := by simp [Reader.isNumeral, digit]
  cases written with
  | whole some_digit digits => exact ⟨some_digit, fun c member => numeral (digits c member), rfl⟩
  | @point whole fraction some_digit digits =>
    refine ⟨by simp, fun c member => ?_, rfl⟩
    rw [List.mem_append, List.mem_cons] at member
    rcases member with before | rfl | behind
    · exact numeral (digits c (List.mem_append_left fraction before))
    · decide
    · exact numeral (digits c (List.mem_append_right whole behind))

/-- The digits behind the point, filled up with zeros on the left. -/
def paddedFraction (decimal : Decimal) : Text :=
  List.replicate (decimal.places - (Text.ofNat (decimal.coefficient % 10 ^ decimal.places)).length) '0' ++
    Text.ofNat (decimal.coefficient % 10 ^ decimal.places)

theorem length_paddedFraction {decimal : Decimal} (some_place : decimal.places ≠ 0) :
    decimal.paddedFraction.length = decimal.places := by
  have small : decimal.coefficient % 10 ^ decimal.places < 10 ^ decimal.places := Nat.mod_lt _ (Nat.pow_pos (by decide))
  have short := (Nat.length_toDigits_le_iff (by decide) (Nat.pos_of_ne_zero some_place)).mpr small
  rw [paddedFraction, List.length_append, List.length_replicate]
  exact Nat.sub_add_cancel short

theorem ofDigitChars_paddedFraction (decimal : Decimal) :
    Nat.ofDigitChars 10 decimal.paddedFraction 0 = decimal.coefficient % 10 ^ decimal.places := by
  rw [paddedFraction, Nat.ofDigitChars_append, Nat.ofDigitChars_replicate_zero, Nat.mul_zero, Text.ofNat,
    Nat.ofDigitChars_ten_toDigits]

theorem isDigit_of_mem_paddedFraction {decimal : Decimal} {c : Char} (member : c ∈ decimal.paddedFraction) :
    c.isDigit = true := by
  rw [paddedFraction, List.mem_append, List.mem_replicate] at member
  rcases member with ⟨_, rfl⟩ | digit
  · decide
  · exact Text.isDigit_of_mem_ofNat digit

theorem fractionDigits_eq (decimal : Decimal) :
    decimal.fractionDigits = if decimal.places = 0 then [] else decimal.paddedFraction.rdropWhile (· = '0') := rfl

/-- What is left out behind the digits of the fraction are zeros. -/
theorem exists_zeros (decimal : Decimal) : ∃ zeros, decimal.fractionDigits.length + zeros = decimal.places ∧
    Nat.ofDigitChars 10 (decimal.fractionDigits ++ List.replicate zeros '0') 0 = decimal.coefficient % 10 ^ decimal.places ∧
    ∀ c ∈ decimal.fractionDigits, c.isDigit = true := by
  rw [fractionDigits_eq]
  split
  · next none => exact ⟨0, by simp [none], by simp [none, Nat.mod_one], by simp⟩
  · next some_place =>
    have zeros : ∀ c ∈ decimal.paddedFraction.rtakeWhile (· = '0'), c = '0' := fun c member => by
      simpa using List.mem_rtakeWhile_imp (p := (· = '0')) member
    have parts := List.rdropWhile_append_rtakeWhile (p := (· = '0')) (l := decimal.paddedFraction)
    refine ⟨(decimal.paddedFraction.rtakeWhile (· = '0')).length, ?_, ?_, fun c member => ?_⟩
    · rw [← List.length_append, parts, length_paddedFraction some_place]
    · rw [← List.eq_replicate_iff.mpr ⟨rfl, zeros⟩, parts, ofDigitChars_paddedFraction]
    · exact isDigit_of_mem_paddedFraction ((List.rdropWhile_prefix (· = '0') _).subset member)

/-- What the text of a decimal is read as. -/
def reread (decimal : Decimal) : Decimal :=
  ⟨ofDigits (Text.ofNat (decimal.coefficient / 10 ^ decimal.places) ++ decimal.fractionDigits), decimal.fractionDigits.length⟩

theorem writtenAs_toText (decimal : Decimal) : WrittenAs decimal.toText decimal.reread := by
  obtain ⟨_, _, _, digits⟩ := decimal.exists_zeros
  have some_digit : Text.ofNat (decimal.coefficient / 10 ^ decimal.places) ≠ [] := Nat.toDigits_ne_nil
  have whole : ∀ c ∈ Text.ofNat (decimal.coefficient / 10 ^ decimal.places), c.isDigit = true := fun _ =>
    Text.isDigit_of_mem_ofNat
  rw [toText, reread]
  cases fraction : decimal.fractionDigits with
  | nil =>
    rw [List.append_nil]
    exact .whole some_digit whole
  | cons digit more =>
    rw [fraction] at digits
    exact .point (by simp) (List.forall_mem_append.mpr ⟨whole, digits⟩)

theorem value_reread (decimal : Decimal) : decimal.reread.value = decimal.value := by
  obtain ⟨zeros, places, behind, _⟩ := decimal.exists_zeros
  -- with the zeros the digits are those of the coefficient
  have shifted : 10 ^ zeros * decimal.reread.coefficient = decimal.coefficient := by
    calc 10 ^ zeros * decimal.reread.coefficient
        = Nat.ofDigitChars 10 (Text.ofNat (decimal.coefficient / 10 ^ decimal.places) ++
            (decimal.fractionDigits ++ List.replicate zeros '0')) 0 := by
          rw [← List.append_assoc, Nat.ofDigitChars_append, Nat.ofDigitChars_replicate_zero]
          rfl
      _ = 10 ^ decimal.places * (decimal.coefficient / 10 ^ decimal.places) +
            decimal.coefficient % 10 ^ decimal.places := by
          rw [Nat.ofDigitChars_append, Nat.ofDigitChars_eq_ofDigitChars_zero, List.length_append, List.length_replicate,
            places, behind, Text.ofNat, Nat.ofDigitChars_ten_toDigits]
      _ = decimal.coefficient := Nat.div_add_mod _ _
  rw [value, value, ← shifted, ← places, pow_add]
  push_cast
  rw [mul_comm (10 ^ decimal.fractionDigits.length : ℚ), mul_div_mul_left _ _ (pow_ne_zero zeros (by norm_num))]
  rfl

/-- A decimal is written with its exact value. -/
theorem exactValue_toText (decimal : Decimal) : exactValue decimal.toText = decimal.value := by
  rw [← value_of_ofText? (ofText?_eq_some_iff.mpr decimal.writtenAs_toText), value_reread]

theorem readable_toText (decimal : Decimal) : Readable decimal.toText :=
  (exists_ofText?_iff decimal.writtenAs_toText.digitsAndPoints.2.1).mp
    ⟨_, ofText?_eq_some_iff.mpr decimal.writtenAs_toText⟩

end Decimal

/-! ### Numbers of the format -/

namespace Binary64

theorem Nearest.self {units : Nat} (representable : Representable units) : Nearest units units where
  representable := representable
  closest other _ := by
    rw [sub_self, abs_zero]
    exact abs_nonneg _
  even other _ different tie := by
    rw [sub_self, abs_zero, abs_eq_zero, sub_eq_zero] at tie
    exact absurd (Nat.cast_injective tie).symm different

theorem value_exactDecimal (units : Nat) : (exactDecimal units).value * one = units := by
  unfold exactDecimal one
  generalize 1074 = n
  rw [Decimal.value, show (10 : ℚ) = 5 * 2 by norm_num, mul_pow, Nat.pow_eq, Nat.pow_eq]
  push_cast
  rw [div_mul_eq_mul_div, mul_assoc, mul_div_cancel_right₀ _ (by positivity)]

/-- A number of the format is what its exact value is rounded to. -/
theorem nearest_exactDecimal {units : Nat} (representable : Representable units) (inside : units < limit) :
    nearest (exactDecimal units) = finite units := by
  refine (rounds_nearest (exactDecimal units)).unique (.finite ?_ inside)
  rw [value_exactDecimal]
  exact .self representable

theorem nearest_of_readsBackOn? {exponent : Int} {units : Nat} {decimal : Decimal}
    (found : readsBackOn? exponent units = some decimal) : nearest decimal = finite units := by
  unfold readsBackOn? at found
  simpa using List.find?_some (p := fun decimal => decide (nearest decimal = finite units)) found

/-- The digits chosen for a number of the format read back as the number. -/
theorem nearest_shortest {units : Nat} (representable : Representable units) (inside : units < limit) :
    nearest (shortest units) = finite units := by
  rw [shortest]
  split
  · next zero =>
    subst zero
    decide +kernel
  · cases chosen : (List.range 17).findSome? fun (shorter : Nat) =>
        readsBackOn? (magnitude units - ((shorter : Int) + 1)) units with
    | none => exact nearest_exactDecimal representable inside
    | some decimal =>
      obtain ⟨_, _, found⟩ := List.exists_of_findSome?_eq_some chosen
      exact nearest_of_readsBackOn? found

/-- A number that something is rounded to is what the exact value of its text is rounded to. -/
theorem Rounds.toText {x : ℚ} {units : Nat} (rounds : Rounds x (.finite units)) :
    Rounds (exactValue (Binary64.finite units).toText) (.finite units) := by
  cases rounds with
  | finite near inside =>
    rw [Binary64.toText, Decimal.exactValue_toText]
    exact nearest_shortest near.representable inside ▸ rounds_nearest (shortest units)

end Binary64
end PatternLint
