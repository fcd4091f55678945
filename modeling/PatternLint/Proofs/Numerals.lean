import PatternLint.Proofs.LineRules
import PatternLint.Proofs.Rounding

/-!
# Numerals

A call of an effect takes any run of digits and points. It can be read as a number if there is a digit and no more than
one point (`exists_ofText?_iff`), and then stands for its digits in positional notation (`value_of_ofText?`).
-/
namespace PatternLint

/-- A run of digits and points. -/
def DigitsAndPoints (literal given : Text) : Prop :=
  literal ≠ [] ∧ (∀ c ∈ literal, Reader.isNumeral c = true) ∧ given = literal

/-- At least one digit and at most one point. -/
def Readable (literal : Text) : Prop := (∃ c ∈ literal, c.isDigit = true) ∧ literal.count '.' ≤ 1

/-- How many characters stand behind the first point of a literal. -/
def behindPoint (literal : Text) : Nat := (literal.dropWhile (· ≠ '.')).tail.length

/-- The exact value of a literal: its digits as one number, with the point as far from the end as it stands. -/
def exactValue (literal : Text) : ℚ :=
  Nat.ofDigitChars 10 (literal.filter Char.isDigit) 0 / 10 ^ behindPoint literal

theorem exactValue_nonneg (literal : Text) : 0 ≤ exactValue literal := by
  unfold exactValue
  positivity

/-! ### The characters of a numeral -/

theorem not_isDigit_point : '.'.isDigit = false := by decide

theorem point_not_mem {digits : Text} (own : ∀ c ∈ digits, c.isDigit = true) : '.' ∉ digits := fun member =>
  Bool.noConfusion (not_isDigit_point.symm.trans (own '.' member))

theorem isDigit_of_isNumeral {c : Char} (numeral : Reader.isNumeral c = true) (other : c ≠ '.') : c.isDigit = true := by
  simpa [Reader.isNumeral, other] using numeral

theorem isBlank_of_isNumeral {c : Char} (numeral : Reader.isNumeral c = true) : isBlank c = false := by
  by_cases point : c = '.'
  · subst point
    decide
  · have digit := isDigit_of_isNumeral numeral point
    have low : 48 ≤ c.toNat := by simp [Char.isDigit] at digit; exact digit.1
    have high : c.toNat ≤ 57 := by simp [Char.isDigit] at digit; exact digit.2
    simp [isBlank, blankRanges]
    omega

namespace Reader

theorem numeral_readsArgument : ReadsArgument numeral DigitsAndPoints where
  sound {text value rest} read := by
    unfold numeral at read
    split at read
    · cases read
    · next c more taken =>
      simp only [Option.some.injEq, Prod.mk.injEq] at read
      obtain ⟨rfl, rfl⟩ := read
      refine ⟨c :: more, ⟨List.cons_ne_nil c more, fun d member => ?_, rfl⟩, ?_⟩
      · rw [← taken] at member
        exact List.mem_takeWhile_imp member
      · rw [← taken]
        exact List.takeWhile_append_dropWhile.symm
  complete {value given tail after} ofForm closed := by
    obtain ⟨some_value, numerals, rfl⟩ := ofForm
    obtain ⟨c, more, rfl⟩ := List.exists_cons_of_ne_nil some_value
    have stop : ∀ d ∈ tail.head?, isNumeral d = false := by
      obtain ⟨gap, blank, rfl⟩ := (Text.trimLeft_eq_cons_iff (by decide)).mp closed
      intro d head
      rcases Gap.head_cases blank head with blank | rfl
      · by_contra numeral
        exact absurd blank (Bool.eq_false_iff.mp (isBlank_of_isNumeral (Bool.eq_true_of_not_eq_false numeral)))
      · decide
    obtain ⟨taken, dropped⟩ := Text.takeWhile_append_of_stop numerals stop
    rw [numeral, taken, dropped]
  solid {value given} ofForm := by
    obtain ⟨some_value, numerals, rfl⟩ := ofForm
    obtain ⟨c, more, rfl⟩ := List.exists_cons_of_ne_nil some_value
    exact ⟨c, more, rfl, isBlank_of_isNumeral (numerals c List.mem_cons_self)⟩

end Reader

/-! ### Reading numerals -/

namespace Decimal

/-- A decimal written with digits alone, or with digits around a point. -/
inductive WrittenAs : Text → Decimal → Prop
  | whole {digits : Text} : digits ≠ [] → (∀ c ∈ digits, c.isDigit = true) → WrittenAs digits ⟨ofDigits digits, 0⟩
  | point {whole fraction : Text} : whole ++ fraction ≠ [] → (∀ c ∈ whole ++ fraction, c.isDigit = true) →
      WrittenAs (whole ++ '.' :: fraction) ⟨ofDigits (whole ++ fraction), fraction.length⟩

theorem ofText?_eq_some_iff {literal : Text} {amount : Decimal} :
    ofText? literal = some amount ↔ WrittenAs literal amount := by
  constructor
  · intro read
    have parts := List.takeWhile_append_dropWhile (p := Char.isDigit) (l := literal)
    have digits : ∀ c ∈ literal.takeWhile Char.isDigit, c.isDigit = true := fun c => List.mem_takeWhile_imp
    unfold ofText? at read
    dsimp only at read
    split at read
    · next rest =>
      split at read
      · cases read
      · next some_digit =>
        cases read
        rw [rest, List.append_nil] at parts
        rw [parts] at digits some_digit ⊢
        exact .whole (by simpa using some_digit) digits
    · next point fraction rest =>
      split at read
      · next fine =>
        cases read
        simp only [Bool.and_eq_true, decide_eq_true_eq, List.all_eq_true, Bool.not_eq_true', ← Bool.not_eq_true,
          List.isEmpty_iff] at fine
        obtain ⟨⟨rfl, behind⟩, some_digit⟩ := fine
        rw [rest] at parts
        generalize literal.takeWhile Char.isDigit = whole at *
        subst parts
        exact .point (fun none => some_digit (List.append_eq_nil_iff.mp none)) (List.forall_mem_append.mpr ⟨digits, behind⟩)
      · cases read
  · rintro (⟨some_digit, digits⟩ | ⟨some_digit, digits⟩)
    · have taken : literal.takeWhile Char.isDigit = literal := List.takeWhile_eq_self_iff.mpr digits
      have dropped : literal.dropWhile Char.isDigit = [] := List.dropWhile_eq_nil_iff.mpr digits
      simp [ofText?, taken, dropped, some_digit]
    · next whole fraction =>
      obtain ⟨before, behind⟩ := List.forall_mem_append.mp digits
      have stop : ∀ c ∈ ('.' :: fraction).head?, c.isDigit = false := by simp [not_isDigit_point]
      obtain ⟨taken, dropped⟩ := Text.takeWhile_append_of_stop before stop
      have fine : ('.' = '.' && fraction.all Char.isDigit && !(whole.isEmpty && fraction.isEmpty)) = true := by
        have some_digit := not_and_or.mp (mt List.append_eq_nil_iff.mpr some_digit)
        simpa using ⟨behind, some_digit⟩
      rw [ofText?, taken, dropped]
      exact if_pos fine

/-- A literal can be read just when there is a digit and at most one point. -/
theorem exists_ofText?_iff {literal : Text} (numerals : ∀ c ∈ literal, Reader.isNumeral c = true) :
    (∃ amount, ofText? literal = some amount) ↔ Readable literal := by
  simp only [ofText?_eq_some_iff]
  constructor
  · rintro ⟨_, ⟨some_digit, digits⟩ | ⟨some_digit, digits⟩⟩
    · obtain ⟨c, member⟩ := List.exists_mem_of_ne_nil literal some_digit
      exact ⟨⟨c, member, digits c member⟩, by rw [List.count_eq_zero.mpr (point_not_mem digits)]; exact Nat.zero_le 1⟩
    · next whole fraction =>
      obtain ⟨c, member⟩ := List.exists_mem_of_ne_nil (whole ++ fraction) some_digit
      have points : (whole ++ fraction).count '.' = 0 := List.count_eq_zero.mpr (point_not_mem digits)
      refine ⟨⟨c, ?_, digits c member⟩, ?_⟩
      · rw [List.mem_append, List.mem_cons]
        exact (List.mem_append.mp member).imp_right .inr
      · rw [List.count_append] at points ⊢
        rw [List.count_cons_self]
        omega
  · rintro ⟨⟨c, member, digit⟩, few⟩
    by_cases point : '.' ∈ literal
    · obtain ⟨whole, fraction, rfl, before⟩ := List.eq_append_cons_of_mem point
      rw [List.count_append, List.count_cons_self] at few
      have behind : '.' ∉ fraction := List.count_eq_zero.mp (by omega)
      have digits : ∀ d ∈ whole ++ fraction, d.isDigit = true := by
        intro d inside
        refine isDigit_of_isNumeral (numerals d ?_) fun same => ?_
        · rw [List.mem_append, List.mem_cons]
          exact (List.mem_append.mp inside).imp_right .inr
        · subst same
          exact (List.mem_append.mp inside).elim before behind
      have other : c ≠ '.' := fun same => point_not_mem (List.forall_mem_singleton.mpr digit) (by simp [same])
      have inside : c ∈ whole ++ fraction := by simpa [other] using member
      exact ⟨_, .point (List.ne_nil_of_mem inside) digits⟩
    · have digits : ∀ d ∈ literal, d.isDigit = true := fun d inside =>
        isDigit_of_isNumeral (numerals d inside) fun same => point (same ▸ inside)
      exact ⟨_, .whole (List.ne_nil_of_mem member) digits⟩

/-- What is read is the exact value. -/
theorem value_of_ofText? {literal : Text} {amount : Decimal} (read : ofText? literal = some amount) :
    amount.value = exactValue literal := by
  rw [ofText?_eq_some_iff] at read
  unfold exactValue behindPoint
  cases read with
  | whole some_digit digits =>
    have nothing : literal.dropWhile (· ≠ '.') = [] := List.dropWhile_eq_nil_iff.mpr fun c member =>
      decide_eq_true fun same => point_not_mem digits (same ▸ member)
    rw [List.filter_eq_self.mpr digits, nothing]
    rfl
  | @point whole fraction some_digit digits =>
    have before : ∀ c ∈ whole, decide (c ≠ '.') = true := fun c member =>
      decide_eq_true fun same => point_not_mem digits (same ▸ List.mem_append_left fraction member)
    have stop : ∀ c ∈ ('.' :: fraction).head?, decide (c ≠ '.') = false := by simp
    have stopped := (Text.takeWhile_append_of_stop before stop).2
    have kept : (whole ++ '.' :: fraction).filter Char.isDigit = whole ++ fraction := by
      rw [List.filter_append, List.filter_cons_of_neg (by decide), ← List.filter_append, List.filter_eq_self.mpr digits]
    rw [kept, stopped]
    rfl

end Decimal
end PatternLint
