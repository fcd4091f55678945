import Mathlib.Algebra.Order.Field.Rat
import Mathlib.Data.List.TakeWhile
import PatternLint.Proofs.Text

/-!
# Numbers of JSON

What a number may look like and which number it denotes (`Number`), and a reader that takes one off the front of a text.
Any number is read as what it denotes, as far as it goes (`number?_append`), and nothing else is read as a number
(`number_of_number?`).
-/
namespace PatternLint.Json.Standard

/-! ### The grammar -/

def Digits (text : Text) : Prop := text ≠ [] ∧ ∀ c ∈ text, c.isDigit = true

/-- The number that digits denote. -/
def valueOf (digits : Text) : Nat := Nat.ofDigitChars 10 digits 0

/-- A sign in front of a number, and what it multiplies by. -/
inductive Sign : ℤ → Text → Prop
  | none : Sign 1 []
  | minus : Sign (-1) ['-']

/-- What stands in front of the point: no zero leads other digits. -/
inductive Whole : Nat → Text → Prop
  | mk {digits : Text} : Digits digits → (digits.head? = some '0' → digits = ['0']) → Whole (valueOf digits) digits

inductive Fraction : ℚ → Text → Prop
  | none : Fraction 0 []
  | digits {digits : Text} : Digits digits → Fraction (valueOf digits / 10 ^ digits.length) ('.' :: digits)

/-- A sign of an exponent: unlike in front of a number it can also be a plus. -/
inductive ExponentSign : ℤ → Text → Prop
  | none : ExponentSign 1 []
  | plus : ExponentSign 1 ['+']
  | minus : ExponentSign (-1) ['-']

inductive Exponent : ℤ → Text → Prop
  | none : Exponent 0 []
  | digits {mark : Char} {factor : ℤ} {sign digits : Text} : mark = 'e' ∨ mark = 'E' → ExponentSign factor sign →
      Digits digits → Exponent (factor * valueOf digits) (mark :: sign ++ digits)

inductive Number : ℚ → Text → Prop
  | mk {factor exponent : ℤ} {whole : Nat} {fraction : ℚ} {first second third fourth : Text} : Sign factor first →
      Whole whole second → Fraction fraction third → Exponent exponent fourth →
      Number (factor * (whole + fraction) * 10 ^ exponent) (first ++ second ++ third ++ fourth)

/-! ### The reader -/

def digits? (text : Text) : Option (Text × Text) :=
  match text.takeWhile Char.isDigit with
  | [] => none
  | c :: digits => some (c :: digits, text.dropWhile Char.isDigit)

def sign : Text → ℤ × Text
  | '-' :: text => (-1, text)
  | text => (1, text)

def exponentSign : Text → ℤ × Text
  | '+' :: text => (1, text)
  | '-' :: text => (-1, text)
  | text => (1, text)

def whole? (text : Text) : Option (Nat × Text) :=
  match digits? text with
  | none => none
  | some (digits, rest) => if digits.head? = some '0' ∧ digits ≠ ['0'] then none else some (valueOf digits, rest)

def fraction? : Text → Option (ℚ × Text)
  | '.' :: text => (digits? text).map fun (digits, rest) => (valueOf digits / 10 ^ digits.length, rest)
  | text => some (0, text)

def exponent? : Text → Option (ℤ × Text)
  | [] => some (0, [])
  | c :: text =>
    if c = 'e' ∨ c = 'E' then
      (digits? (exponentSign text).2).map fun (digits, rest) => ((exponentSign text).1 * valueOf digits, rest)
    else some (0, c :: text)

/-- The number that a text starts with, and the text behind it. -/
def number? (text : Text) : Option (ℚ × Text) :=
  match whole? (sign text).2 with
  | none => none
  | some (whole, rest) =>
    match fraction? rest with
    | none => none
    | some (fraction, rest) =>
      (exponent? rest).map fun (exponent, rest) => ((sign text).1 * (whole + fraction) * 10 ^ exponent, rest)

/-! ### Parts of numbers -/

theorem Digits.exists_cons {digits : Text} (own : Digits digits) : ∃ c more, digits = c :: more ∧ c.isDigit = true := by
  obtain ⟨c, more, rfl⟩ := List.exists_cons_of_ne_nil own.1
  exact ⟨c, more, rfl, own.2 c List.mem_cons_self⟩

theorem digits_of_digits? {text digits rest : Text} (read : digits? text = some (digits, rest)) :
    Digits digits ∧ text = digits ++ rest := by
  have whole := List.takeWhile_append_dropWhile (p := Char.isDigit) (l := text)
  have own : ∀ c ∈ text.takeWhile Char.isDigit, c.isDigit = true := fun c member => List.mem_takeWhile_imp member
  rw [digits?] at read
  split at read
  · cases read
  · next c more taken =>
    cases read
    rw [taken] at whole own
    exact ⟨⟨List.cons_ne_nil _ _, own⟩, whole.symm⟩

theorem digits?_append {digits rest : Text} (own : Digits digits) (stop : ∀ c ∈ rest.head?, c.isDigit = false) :
    digits? (digits ++ rest) = some (digits, rest) := by
  obtain ⟨taken, dropped⟩ := Text.takeWhile_append_of_stop own.2 stop
  obtain ⟨c, digits, rfl, -⟩ := own.exists_cons
  rw [digits?, taken, dropped]

theorem Whole.digits {whole : Nat} {text : Text} (own : Whole whole text) : Digits text := by
  cases own
  assumption

theorem whole?_append {whole : Nat} {text rest : Text} (own : Whole whole text)
    (stop : ∀ c ∈ rest.head?, c.isDigit = false) : whole? (text ++ rest) = some (whole, rest) := by
  obtain ⟨digits, lead⟩ := own
  have fine : ¬ (text.head? = some '0' ∧ text ≠ ['0']) := fun bad => bad.2 (lead bad.1)
  simp only [whole?, digits?_append digits stop, if_neg fine]

theorem whole_of_whole? {text rest : Text} {whole : Nat} (read : whole? text = some (whole, rest)) :
    ∃ front, text = front ++ rest ∧ Whole whole front := by
  rw [whole?] at read
  split at read
  · cases read
  · next digits rest found =>
    obtain ⟨own, rfl⟩ := digits_of_digits? found
    split at read
    · cases read
    · next fine =>
      cases read
      exact ⟨digits, rfl, .mk own fun zero => by_contra fun more => fine ⟨zero, more⟩⟩

theorem fraction?_append {fraction : ℚ} {text rest : Text} (own : Fraction fraction text)
    (stop : ∀ c ∈ rest.head?, c.isDigit = false ∧ c ≠ '.') : fraction? (text ++ rest) = some (fraction, rest) := by
  cases own with
  | none =>
    cases rest with
    | nil => rfl
    | cons c rest =>
      have other : c ≠ '.' := (stop c rfl).2
      rw [List.nil_append, fraction?]
      rintro _ same
      cases same
      exact other rfl
  | digits digits =>
    rw [List.cons_append, fraction?, digits?_append digits fun c head => (stop c head).1]
    rfl

theorem fraction_of_fraction? {text rest : Text} {fraction : ℚ} (read : fraction? text = some (fraction, rest)) :
    ∃ front, text = front ++ rest ∧ Fraction fraction front := by
  rw [fraction?.eq_def] at read
  split at read
  · next text =>
    obtain ⟨pair, found, same⟩ := Option.map_eq_some_iff.mp read
    cases same
    obtain ⟨own, same⟩ := digits_of_digits? found
    exact ⟨'.' :: pair.1, by rw [same]; rfl, .digits own⟩
  · cases read
    exact ⟨[], rfl, .none⟩

theorem sign_append {factor : ℤ} {text digits : Text} (own : Sign factor text) (behind : Digits digits) (rest : Text) :
    sign (text ++ (digits ++ rest)) = (factor, digits ++ rest) := by
  cases own with
  | none =>
    obtain ⟨c, digits, rfl, digit⟩ := behind.exists_cons
    rw [List.nil_append, List.cons_append, sign]
    rintro _ same
    cases same
    exact absurd digit (by decide)
  | minus => rfl

theorem sign_spec (text : Text) : ∃ front, text = front ++ (sign text).2 ∧ Sign (sign text).1 front := by
  rw [sign.eq_def]
  split
  · exact ⟨['-'], rfl, .minus⟩
  · exact ⟨[], rfl, .none⟩

theorem exponentSign_append {factor : ℤ} {text digits : Text} (own : ExponentSign factor text)
    (behind : Digits digits) (rest : Text) : exponentSign (text ++ (digits ++ rest)) = (factor, digits ++ rest) := by
  cases own with
  | none =>
    obtain ⟨c, digits, rfl, digit⟩ := behind.exists_cons
    rw [List.nil_append, List.cons_append, exponentSign]
    all_goals
      rintro _ same
      cases same
      exact absurd digit (by decide)
  | plus => rfl
  | minus => rfl

theorem exponentSign_spec (text : Text) :
    ∃ front, text = front ++ (exponentSign text).2 ∧ ExponentSign (exponentSign text).1 front := by
  rw [exponentSign.eq_def]
  split
  · exact ⟨['+'], rfl, .plus⟩
  · exact ⟨['-'], rfl, .minus⟩
  · exact ⟨[], rfl, .none⟩

/-- Whether a text starts with no character that continues a number. -/
def Ends (text : Text) : Prop := ∀ c ∈ text.head?, c.isDigit = false ∧ c ≠ '.' ∧ c ≠ 'e' ∧ c ≠ 'E'

theorem exponent?_append {exponent : ℤ} {text rest : Text} (own : Exponent exponent text) (ends : Ends rest) :
    exponent? (text ++ rest) = some (exponent, rest) := by
  cases own with
  | none =>
    cases rest with
    | nil => rfl
    | cons c rest =>
      obtain ⟨-, -, lower, upper⟩ := ends c rfl
      rw [List.nil_append, exponent?, if_neg (by simp [lower, upper])]
  | @digits mark factor sign digits marked signed own =>
    rw [List.append_assoc, List.cons_append, exponent?, if_pos marked, exponentSign_append signed own,
      digits?_append own fun c head => (ends c head).1]
    rfl

theorem exponent_of_exponent? {text rest : Text} {exponent : ℤ} (read : exponent? text = some (exponent, rest)) :
    ∃ front, text = front ++ rest ∧ Exponent exponent front := by
  cases text with
  | nil =>
    cases read
    exact ⟨[], rfl, .none⟩
  | cons mark text =>
    rw [exponent?] at read
    split at read
    · next marked =>
      obtain ⟨pair, found, same⟩ := Option.map_eq_some_iff.mp read
      cases same
      obtain ⟨own, same⟩ := digits_of_digits? found
      obtain ⟨front, whole, signed⟩ := exponentSign_spec text
      refine ⟨mark :: front ++ pair.1, ?_, .digits marked signed own⟩
      rw [List.append_assoc, ← same, List.cons_append, ← whole]
    · cases read
      exact ⟨[], rfl, .none⟩

theorem head?_fraction_append {fraction : ℚ} {text rest : Text} (own : Fraction fraction text) :
    ∀ c ∈ (text ++ rest).head?, c = '.' ∨ c ∈ rest.head? := by
  cases own with
  | none => exact fun c head => .inr head
  | digits => exact fun c head => .inl (Option.some.inj head).symm

theorem head?_exponent_append {exponent : ℤ} {text rest : Text} (own : Exponent exponent text) :
    ∀ c ∈ (text ++ rest).head?, (c = 'e' ∨ c = 'E') ∨ c ∈ rest.head? := by
  cases own with
  | none => exact fun c head => .inr head
  | digits marked =>
    intro c head
    cases head
    exact .inl marked

/-! ### Numbers -/

/-- A number is read to its end: each part of it stops where the next one starts. -/
theorem number?_append {number : ℚ} {text rest : Text} (own : Number number text) (ends : Ends rest) :
    number? (text ++ rest) = some (number, rest) := by
  obtain ⟨signed, whole, fraction, exponent⟩ := own
  next factor power n q first second third fourth =>
  have behindFraction : ∀ c ∈ (fourth ++ rest).head?, c.isDigit = false ∧ c ≠ '.' := by
    intro c head
    rcases head?_exponent_append exponent c head with (rfl | rfl) | head
    · decide
    · decide
    · exact ⟨(ends c head).1, (ends c head).2.1⟩
  have behindWhole : ∀ c ∈ (third ++ (fourth ++ rest)).head?, c.isDigit = false := by
    intro c head
    rcases head?_fraction_append fraction c head with rfl | head
    · decide
    · exact (behindFraction c head).1
  have start : sign (first ++ (second ++ (third ++ (fourth ++ rest)))) =
      (factor, second ++ (third ++ (fourth ++ rest))) := sign_append signed whole.digits _
  rw [number?, List.append_assoc, List.append_assoc, List.append_assoc, start, whole?_append whole behindWhole]
  dsimp only
  rw [fraction?_append fraction behindFraction]
  dsimp only
  rw [exponent?_append exponent ends]
  rfl

theorem number_of_number? {text rest : Text} {number : ℚ} (read : number? text = some (number, rest)) :
    ∃ front, text = front ++ rest ∧ Number number front := by
  obtain ⟨first, start, signed⟩ := sign_spec text
  rw [number?] at read
  split at read
  · cases read
  · next n behind found =>
    obtain ⟨second, own, whole⟩ := whole_of_whole? found
    split at read
    · cases read
    · next q last found =>
      obtain ⟨third, rfl, fraction⟩ := fraction_of_fraction? found
      obtain ⟨pair, found, same⟩ := Option.map_eq_some_iff.mp read
      cases same
      obtain ⟨fourth, rfl, exponent⟩ := exponent_of_exponent? found
      refine ⟨_, ?_, .mk signed whole fraction exponent⟩
      rw [start, own]
      simp only [List.append_assoc]

theorem Number.exists_cons {number : ℚ} {text : Text} (own : Number number text) :
    ∃ c more, text = c :: more ∧ (c = '-' ∨ c.isDigit = true) := by
  obtain ⟨signed, whole, -, -⟩ := own
  cases signed with
  | minus => exact ⟨'-', _, rfl, .inl rfl⟩
  | none =>
    obtain ⟨c, digits, rfl, digit⟩ := whole.digits.exists_cons
    exact ⟨c, _, rfl, .inr digit⟩

end PatternLint.Json.Standard
