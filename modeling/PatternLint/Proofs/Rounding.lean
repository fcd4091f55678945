import Mathlib.Algebra.Order.Field.Basic
import Mathlib.Algebra.Order.Field.Rat
import Mathlib.Data.ENat.Basic
import Mathlib.Tactic.Linarith
import Mathlib.Tactic.Positivity
import Mathlib.Tactic.Ring
import PatternLint.Number.Binary64

/-!
# Correct rounding

A number is rounded correctly when nothing with a significand of 53 bits is closer to it, a tie goes to an even
significand, and what would need a larger exponent is infinite (`Binary64.Rounds`). Two neighbours cannot both be even,
so correct rounding gives one number (`Rounds.unique`) and respects order (`Rounds.le`). Decimals are rounded correctly
(`rounds_nearest`).
-/
namespace PatternLint

/-- The exact value of a decimal. -/
def Decimal.value (decimal : Decimal) : ℚ := decimal.coefficient / 10 ^ decimal.places

namespace Binary64

/-- A number of units with a significand of 53 bits, however large its exponent. -/
def Representable (units : Nat) : Prop :=
  ∃ significand exponent, significand < 2 ^ precision ∧ units = significand * 2 ^ exponent

/-- A number of units with an even significand of 53 bits. -/
def HasEvenSignificand (units : Nat) : Prop :=
  ∃ significand exponent, significand < 2 ^ precision ∧ Even significand ∧ units = significand * 2 ^ exponent

/-- The number of units nearest to `x` with a significand of 53 bits; of two, the one with an even significand. -/
structure Nearest (x : ℚ) (units : Nat) : Prop where
  representable : Representable units
  closest : ∀ other, Representable other → |x - units| ≤ |x - other|
  even : ∀ other, Representable other → other ≠ units → |x - other| = |x - units| → HasEvenSignificand units

/-- The number that `x` is rounded to: the nearest if exponents had no bound, and infinity if that one is too large. -/
inductive Rounds (x : ℚ) : Binary64 → Prop
  | finite {units : Nat} : Nearest (x * one) units → units < limit → Rounds x (.finite units)
  | infinite {units : Nat} : Nearest (x * one) units → limit ≤ units → Rounds x .infinite

/-- A number in units, infinity being the largest. -/
def extent : Binary64 → ℕ∞
  | finite units => units
  | infinite => ⊤

theorem extent_injective : Function.Injective extent := by
  intro a b same
  cases a with
  | finite a =>
    cases b with
    | finite b => rw [ENat.natCast_inj.mp same]
    | infinite => exact absurd same (ENat.natCast_ne_top a)
  | infinite =>
    cases b with
    | finite b => exact absurd same.symm (ENat.natCast_ne_top b)
    | infinite => rfl

theorem below_iff (a b : Binary64) : a.below b = true ↔ a.extent < b.extent := by
  cases a with
  | finite a => cases b <;> simp [below, extent]
  | infinite => simp [below, extent]

/-! ### One number -/

/-- The numbers next to one with an even significand are representable. -/
theorem HasEvenSignificand.neighbours {units : Nat} (even : HasEvenSignificand units) :
    ∃ significand exponent, Even significand ∧ units = significand * 2 ^ exponent ∧
      Representable ((significand + 1) * 2 ^ exponent) ∧ Representable ((significand - 1) * 2 ^ exponent) := by
  obtain ⟨significand, exponent, small, even, rfl⟩ := even
  have other : significand + 1 ≠ 2 ^ precision := by
    intro full
    have : Even (significand + 1) := full ▸ ⟨2 ^ 52, by decide⟩
    exact Nat.even_add_one.mp this even
  exact ⟨significand, exponent, even, rfl, ⟨_, _, by omega, rfl⟩, ⟨_, _, by omega, rfl⟩⟩

/-- Between two numbers with even significands there is a representable one. -/
theorem exists_between {a b : Nat} (less : a < b) (evenA : HasEvenSignificand a) (evenB : HasEvenSignificand b) :
    ∃ between, Representable between ∧ a < between ∧ between < b := by
  obtain ⟨m, e, evenM, rfl, above, _⟩ := evenA.neighbours
  obtain ⟨n, f, evenN, rfl, _, under⟩ := evenB.neighbours
  by_contra nothing
  have someN : n ≠ 0 := by rintro rfl; simp at less
  have upTo : n * 2 ^ f ≤ (m + 1) * 2 ^ e := by
    by_contra further
    exact nothing ⟨_, above, Nat.mul_lt_mul_of_pos_right (by omega) (Nat.two_pow_pos e), Nat.lt_of_not_le further⟩
  have downTo : (n - 1) * 2 ^ f ≤ m * 2 ^ e := by
    by_contra further
    exact nothing ⟨_, under, Nat.lt_of_not_le further, Nat.mul_lt_mul_of_pos_right (by omega) (Nat.two_pow_pos f)⟩
  -- on the finer of the two grids the numbers are next to each other, so one of the even ones is odd there
  rcases Nat.le_total e f with le | le
  · obtain ⟨g, rfl⟩ := Nat.exists_eq_add_of_le' le
    rw [Nat.pow_add, ← Nat.mul_assoc] at less upTo
    have next : n * 2 ^ g = m + 1 := by
      have := Nat.lt_of_mul_lt_mul_right less
      have := Nat.le_of_mul_le_mul_right upTo (Nat.two_pow_pos e)
      omega
    have : Even (m + 1) := next ▸ evenN.mul_right _
    exact Nat.even_add_one.mp this evenM
  · obtain ⟨g, rfl⟩ := Nat.exists_eq_add_of_le' le
    rw [Nat.pow_add, ← Nat.mul_assoc] at less downTo
    have next : m * 2 ^ g + 1 = n := by
      have := Nat.lt_of_mul_lt_mul_right less
      have := Nat.le_of_mul_le_mul_right downTo (Nat.two_pow_pos f)
      omega
    have : Even (m * 2 ^ g + 1) := next ▸ evenN
    exact Nat.even_add_one.mp this (evenM.mul_right _)

/-- What is no further from the larger of two numbers is not below their middle. -/
theorem middle_le {x a b : ℚ} (less : b < a) (closer : |x - a| ≤ |x - b|) : a + b ≤ 2 * x := by
  by_contra under
  have left : |x - a| = a - x := by rw [abs_of_nonpos (by linarith)]; ring
  have : |x - b| < a - x := abs_lt.mpr ⟨by linarith, by linarith⟩
  linarith

/-- What is no further from the smaller of two numbers is not above their middle. -/
theorem le_middle {x a b : ℚ} (less : b < a) (closer : |x - b| ≤ |x - a|) : 2 * x ≤ a + b := by
  by_contra above
  have right : |x - b| = x - b := abs_of_nonneg (by linarith)
  have : |x - a| < x - b := abs_lt.mpr ⟨by linarith, by linarith⟩
  linarith

/-- A larger number is not rounded to fewer units. -/
theorem Nearest.le {x y : ℚ} {a b : Nat} (ordered : x ≤ y) (nearX : Nearest x a) (nearY : Nearest y b) : a ≤ b := by
  by_contra crossed
  have less : (b : ℚ) < a := by exact_mod_cast Nat.lt_of_not_le crossed
  have low := middle_le less (nearX.closest b nearY.representable)
  have high := le_middle less (nearY.closest a nearX.representable)
  -- both numbers are the middle of `b` and `a`, so each is a tie and both significands are even
  have middle : x = y := by linarith
  subst middle
  have tie : |x - b| = |x - a| :=
    le_antisymm (nearY.closest a nearX.representable) (nearX.closest b nearY.representable)
  have other : b ≠ a := Nat.ne_of_lt (Nat.lt_of_not_le crossed)
  obtain ⟨between, representable, above, under⟩ := exists_between (Nat.lt_of_not_le crossed)
    (nearY.even a nearX.representable other.symm tie.symm) (nearX.even b nearY.representable other tie)
  have above : (b : ℚ) < between := by exact_mod_cast above
  have under : (between : ℚ) < a := by exact_mod_cast under
  have closest := nearX.closest between representable
  have left : |x - a| = a - x := by rw [abs_of_nonpos (by linarith)]; ring
  have : |x - between| < a - x := abs_lt.mpr ⟨by linarith, by linarith⟩
  linarith

/-- Rounding respects order. -/
theorem Rounds.le {x y : ℚ} {a b : Binary64} (ordered : x ≤ y) (roundsX : Rounds x a) (roundsY : Rounds y b) :
    a.extent ≤ b.extent := by
  have scaled : x * one ≤ y * one := mul_le_mul_of_nonneg_right ordered (Nat.cast_nonneg one)
  cases roundsY with
  | infinite _ _ => exact le_top
  | finite nearY inside =>
    cases roundsX with
    | finite nearX _ => exact Nat.cast_le.mpr (nearX.le scaled nearY)
    | infinite nearX large =>
      have le := nearX.le scaled nearY
      exact absurd (Nat.lt_of_le_of_lt (Nat.le_trans large le) inside) (Nat.lt_irrefl limit)

/-- There is one number that another is rounded to. -/
theorem Rounds.unique {x : ℚ} {a b : Binary64} (roundsA : Rounds x a) (roundsB : Rounds x b) : a = b :=
  extent_injective (le_antisymm (roundsA.le le_rfl roundsB) (roundsB.le le_rfl roundsA))

/-! ### Rounding decimals -/

/-- A quotient is rounded to an integer that is at most one half away, and even if it is that far. -/
theorem roundDiv_spec (numerator : Nat) {denominator : Nat} (positive : 0 < denominator) :
    2 * |(numerator : ℚ) / denominator - roundDiv numerator denominator| ≤ 1 ∧
    (2 * |(numerator : ℚ) / denominator - roundDiv numerator denominator| = 1 → Even (roundDiv numerator denominator)) := by
  have positive' : (0 : ℚ) < denominator := by exact_mod_cast positive
  have division : (denominator : ℚ) * (numerator / denominator : Nat) + (numerator % denominator : Nat) = numerator := by
    exact_mod_cast Nat.div_add_mod numerator denominator
  have small := Nat.mod_lt numerator positive
  unfold roundDiv
  generalize numerator / denominator = quotient at *
  generalize numerator % denominator = remainder at *
  have whole : (numerator : ℚ) / denominator = quotient + remainder / denominator := by
    rw [← division, add_div, mul_div_cancel_left₀ _ positive'.ne']
  have low : (0 : ℚ) ≤ remainder / denominator := by positivity
  have high : (remainder / denominator : ℚ) < 1 := (div_lt_one positive').mpr (by exact_mod_cast small)
  have half : 2 * (remainder / denominator : ℚ) = (2 * remainder : Nat) / denominator := by push_cast; ring
  rw [whole]
  dsimp only
  split
  · next under =>
    have under : 2 * (remainder / denominator : ℚ) < 1 :=
      half ▸ (div_lt_one positive').mpr (by exact_mod_cast under)
    rw [add_sub_cancel_left, abs_of_nonneg low]
    exact ⟨under.le, fun tie => absurd tie under.ne⟩
  · split
    · next above =>
      have above : 1 < 2 * (remainder / denominator : ℚ) :=
        half ▸ (one_lt_div positive').mpr (by exact_mod_cast above)
      push_cast
      rw [add_sub_add_left_eq_sub, abs_of_nonpos (by linarith)]
      exact ⟨by linarith, fun tie => absurd tie (by linarith)⟩
    · next notUnder notOver =>
      have middle : 2 * (remainder / denominator : ℚ) = 1 :=
        half ▸ (div_eq_one_iff_eq positive'.ne').mpr (by exact_mod_cast (by omega : 2 * remainder = denominator))
      rcases Nat.even_or_odd quotient with even | odd
      · rw [Nat.even_iff.mp even, Nat.add_zero, add_sub_cancel_left, abs_of_nonneg low]
        exact ⟨middle.le, fun _ => even⟩
      · rw [Nat.odd_iff.mp odd]
        push_cast
        rw [add_sub_add_left_eq_sub, abs_of_nonpos (by linarith)]
        exact ⟨by linarith, fun _ => odd.add_one⟩

/-- An integer at most one half away is a nearest one, and the only one unless it is that far. -/
theorem closest_integer {x : ℚ} {units other : Nat} (near : 2 * |x - units| ≤ 1) :
    |x - units| ≤ |x - other| ∧ (other ≠ units → |x - other| = |x - units| → 2 * |x - units| = 1) := by
  by_cases same : other = units
  · exact ⟨by rw [same], fun different => absurd same different⟩
  · have apart : (1 : ℚ) ≤ |(other : ℚ) - units| := by
      have : (1 : ℤ) ≤ |(other : ℤ) - units| := Int.one_le_abs (by omega)
      exact_mod_cast this
    have triangle : |(other : ℚ) - units| ≤ |x - other| + |x - units| := by
      rw [abs_sub_comm x other]
      exact abs_sub_le (other : ℚ) x units
    exact ⟨by linarith, fun _ tie => by linarith⟩

/-- A representable number is on a grid or lies below the numbers that need the grid. -/
theorem Representable.on_grid {units : Nat} (representable : Representable units) (exponent : Nat) :
    (∃ count, units = count * 2 ^ exponent) ∨ exponent ≠ 0 ∧ units < 2 ^ (precision - 1) * 2 ^ exponent := by
  obtain ⟨significand, own, small, rfl⟩ := representable
  rcases Nat.lt_or_ge own exponent with less | le
  · right
    refine ⟨by omega, ?_⟩
    calc significand * 2 ^ own < 2 ^ precision * 2 ^ own := Nat.mul_lt_mul_of_pos_right small (Nat.two_pow_pos own)
      _ = 2 ^ (precision - 1) * 2 ^ (own + 1) := by
        rw [← Nat.pow_add, ← Nat.pow_add, precision]
        congr 1
        omega
      _ ≤ 2 ^ (precision - 1) * 2 ^ exponent := Nat.mul_le_mul_left _ (Nat.pow_le_pow_right (by decide) less)
  · left
    obtain ⟨more, rfl⟩ := Nat.exists_eq_add_of_le' le
    exact ⟨significand * 2 ^ more, by rw [Nat.pow_add, Nat.mul_assoc]⟩

/-- A count on a grid is representable up to the number whose grid is coarser. -/
theorem representable_grid {count exponent : Nat} (fits : count ≤ 2 ^ precision) :
    Representable (count * 2 ^ exponent) ∧ (Even count → HasEvenSignificand (count * 2 ^ exponent)) := by
  rcases Nat.lt_or_eq_of_le fits with less | rfl
  · exact ⟨⟨count, exponent, less, rfl⟩, fun even => ⟨count, exponent, less, even, rfl⟩⟩
  · have half : 2 ^ precision * 2 ^ exponent = 2 ^ (precision - 1) * 2 ^ (exponent + 1) := by
      rw [← Nat.pow_add, ← Nat.pow_add, precision]
      congr 1
      omega
    have less : 2 ^ (precision - 1) < 2 ^ precision := by decide
    exact ⟨⟨_, _, less, half⟩, fun _ => ⟨_, _, less, by decide, half⟩⟩

/-- A number is rounded correctly on the grid for its size. -/
theorem nearest_of_grid {x : ℚ} {exponent count : Nat} (near : 2 * |x / 2 ^ exponent - count| ≤ 1)
    (even : 2 * |x / 2 ^ exponent - count| = 1 → Even count) (upper : x < 2 ^ precision * 2 ^ exponent)
    (lower : exponent ≠ 0 → 2 ^ (precision - 1) * 2 ^ exponent ≤ x) : Nearest x (count * 2 ^ exponent) := by
  have positive : (0 : ℚ) < 2 ^ exponent := by positivity
  have scaled (k : Nat) : |x - (k * 2 ^ exponent : Nat)| = |x / 2 ^ exponent - k| * 2 ^ exponent := by
    rw [← abs_of_pos positive, ← abs_mul, abs_of_pos positive, sub_mul, div_mul_cancel₀ _ positive.ne']
    push_cast
    rfl
  have fits : count ≤ 2 ^ precision := by
    have under : x / 2 ^ exponent < 2 ^ precision := (div_lt_iff₀ positive).mpr upper
    have := (abs_le.mp (show |x / 2 ^ exponent - count| ≤ 1 / 2 by linarith)).1
    have : (count : ℚ) < (2 ^ precision : Nat) + 1 := by push_cast; linarith
    exact Nat.lt_succ_iff.mp (by exact_mod_cast this)
  have onGrid (k : Nat) : |x - (count * 2 ^ exponent : Nat)| ≤ |x - (k * 2 ^ exponent : Nat)| := by
    rw [scaled, scaled]
    exact mul_le_mul_of_nonneg_right (closest_integer near).1 positive.le
  have belowGrid {other : Nat} (some_exponent : exponent ≠ 0) (small : other < 2 ^ (precision - 1) * 2 ^ exponent) :
      |x - (count * 2 ^ exponent : Nat)| < |x - other| := by
    have start := onGrid (2 ^ (precision - 1))
    have large := lower some_exponent
    have small : (other : ℚ) < 2 ^ (precision - 1) * 2 ^ exponent := by exact_mod_cast small
    push_cast at start ⊢
    rw [abs_of_nonneg (a := x - 2 ^ (precision - 1) * 2 ^ exponent) (by linarith)] at start
    rw [abs_of_nonneg (a := x - other) (by linarith)]
    linarith
  refine ⟨(representable_grid fits).1, fun other representable => ?_, fun other representable different tie => ?_⟩
  · rcases representable.on_grid exponent with ⟨k, rfl⟩ | ⟨some_exponent, small⟩
    · exact onGrid k
    · exact (belowGrid some_exponent small).le
  · rcases representable.on_grid exponent with ⟨k, rfl⟩ | ⟨some_exponent, small⟩
    · rw [scaled, scaled] at tie
      have apart : k ≠ count := fun same => different (same ▸ rfl)
      exact (representable_grid fits).2
        (even ((closest_integer near).2 apart (mul_right_cancel₀ positive.ne' tie)))
    · exact absurd tie (belowGrid some_exponent small).ne'

/-- The spacing around a number is that of the grid for its size. -/
theorem exists_spacing (units : Nat) : ∃ exponent, spacing units = 2 ^ exponent ∧
    units < 2 ^ precision * 2 ^ exponent ∧ (exponent ≠ 0 → 2 ^ (precision - 1) * 2 ^ exponent ≤ units) := by
  refine ⟨units.log2 + 1 - precision, rfl, ?_, fun some_exponent => ?_⟩
  · rw [← Nat.pow_add]
    exact Nat.lt_of_lt_of_le Nat.lt_log2_self (Nat.pow_le_pow_right (by decide) (by omega))
  · have some_units : units ≠ 0 := by
      rintro rfl
      exact some_exponent (by decide)
    have exponents : precision - 1 + (units.log2 + 1 - precision) = units.log2 := by
      rw [precision] at some_exponent ⊢
      omega
    rw [← Nat.pow_add, exponents]
    exact Nat.log2_self_le some_units

/-- A quotient is rounded correctly with the spacing of its integer part. -/
theorem nearest_quotient (numerator : Nat) {denominator : Nat} (positive : 0 < denominator) :
    Nearest (numerator / denominator) (roundDiv numerator (denominator * spacing (numerator / denominator)) *
      spacing (numerator / denominator)) := by
  obtain ⟨exponent, step, upper, lower⟩ := exists_spacing (numerator / denominator)
  have positive' : (0 : ℚ) < denominator := by exact_mod_cast positive
  have quotient : (numerator : ℚ) / denominator / 2 ^ exponent = numerator / (denominator * 2 ^ exponent : Nat) := by
    rw [div_div]
    push_cast
    rfl
  have rounded := roundDiv_spec numerator (Nat.mul_pos positive (Nat.two_pow_pos exponent))
  rw [← quotient] at rounded
  rw [step]
  refine nearest_of_grid rounded.1 rounded.2 ?_ fun some_exponent => ?_
  · rw [div_lt_iff₀ positive']
    exact_mod_cast (Nat.div_lt_iff_lt_mul positive).mp upper
  · rw [le_div_iff₀ positive']
    exact_mod_cast (Nat.le_div_iff_mul_le positive).mp (lower some_exponent)

theorem rounds_of_nearest {x : ℚ} {units : Nat} (near : Nearest (x * one) units) :
    Rounds x (if units < limit then finite units else infinite) := by
  by_cases inside : units < limit
  · rw [if_pos inside]
    exact .finite near inside
  · rw [if_neg inside]
    exact .infinite near (Nat.le_of_not_lt inside)

/-- Decimals are rounded correctly. -/
theorem rounds_nearest (decimal : Decimal) : Rounds decimal.value (nearest decimal) := by
  have positive : 0 < Nat.pow 10 decimal.places := Nat.pow_pos (by decide)
  have near := nearest_quotient (decimal.coefficient * one) positive
  have units : decimal.value * one = (decimal.coefficient * one : Nat) / (Nat.pow 10 decimal.places : Nat) := by
    rw [Decimal.value, Nat.pow_eq]
    push_cast
    ring
  rw [← units] at near
  unfold nearest
  exact rounds_of_nearest near

end Binary64
end PatternLint
