import PatternLint.Text.Basic

/-!
# Searching a text for a pattern

A pattern reads at the front of a text, and may forbid some characters right before it. `find?` gives its
leftmost occurrence and `all` what the successive occurrences captured, each search going on where the last
occurrence ended. Main statements: an occurrence cuts the text into three (`find?_parts`), and the one
found is the first (`find?_eq_some_iff`).
-/
namespace PatternLint

/-- A pattern: how to read it at the front of a text, and after which characters it may start. -/
structure Pattern (α : Type) where
  /-- Whether the pattern may start after this character; `none` is the start of the text. -/
  mayFollow : Option Char → Bool := fun _ => true
  /-- What is captured at the front of a text, and the text behind the occurrence. -/
  read : Text → Option (α × Text)
  /-- An occurrence is not empty. -/
  advances : ∀ {text captured after}, read text = some (captured, after) → ∃ word, word ≠ [] ∧ text = word ++ after

/-- An occurrence of a pattern in a text. -/
structure Occurrence (α : Type) where
  before : Text
  captured : α
  /-- The text behind the occurrence. -/
  after : Text
  deriving Repr, DecidableEq

namespace Pattern

variable {α : Type}

/-- The pattern at the front of a text that stands after a character. -/
def readAfter (pattern : Pattern α) (last : Option Char) (text : Text) : Option (α × Text) :=
  if pattern.mayFollow last then pattern.read text else none

/-- The leftmost occurrence in the second text, where the first, given in reverse, has been passed. -/
def findFrom (pattern : Pattern α) : Text → Text → Option (Occurrence α)
  | _, [] => none
  | passed, c :: text =>
    match pattern.readAfter passed.head? (c :: text) with
    | some (captured, after) => some ⟨passed.reverse, captured, after⟩
    | none => findFrom pattern (c :: passed) text

/-- The leftmost occurrence of a pattern in a text. -/
def find? (pattern : Pattern α) (text : Text) : Option (Occurrence α) := pattern.findFrom [] text

def occursIn (pattern : Pattern α) (text : Text) : Bool := (pattern.find? text).isSome

theorem readAfter_nil (pattern : Pattern α) (last : Option Char) : pattern.readAfter last [] = none := by
  unfold readAfter
  split
  · cases result : pattern.read [] with
    | none => rfl
    | some pair =>
      obtain ⟨word, some_word, is⟩ := pattern.advances result
      exact absurd (List.append_eq_nil_iff.mp is.symm).1 some_word
  · rfl

theorem readAfter_advances {pattern : Pattern α} {last : Option Char} {text after : Text} {captured : α}
    (result : pattern.readAfter last text = some (captured, after)) : ∃ word, word ≠ [] ∧ text = word ++ after := by
  unfold readAfter at result
  split at result
  · exact pattern.advances result
  · simp at result

/-- An occurrence behind characters that are skipped, with none to its left. The first text, given in reverse, has been
    passed. -/
def FirstFrom (pattern : Pattern α) (passed text : Text) (o : Occurrence α) : Prop :=
  ∃ skipped rest, text = skipped ++ rest ∧ o.before = passed.reverse ++ skipped ∧
    pattern.readAfter (skipped.reverse ++ passed).head? rest = some (o.captured, o.after) ∧
    ∀ left right, text = left ++ right → left.length < skipped.length →
      pattern.readAfter (left.reverse ++ passed).head? right = none

theorem not_firstFrom_nil (pattern : Pattern α) (passed : Text) (o : Occurrence α) : ¬ pattern.FirstFrom passed [] o := by
  rintro ⟨skipped, rest, parts, _, result, _⟩
  obtain ⟨rfl, rfl⟩ := List.append_eq_nil_iff.mp parts.symm
  rw [readAfter_nil] at result
  cases result

/-- An occurrence at the front is the first. -/
theorem firstFrom_of_readAfter {pattern : Pattern α} {passed text after : Text} {captured : α}
    (here : pattern.readAfter passed.head? text = some (captured, after)) (o : Occurrence α) :
    pattern.FirstFrom passed text o ↔ o = ⟨passed.reverse, captured, after⟩ := by
  constructor
  · rintro ⟨skipped, rest, parts, before, result, first⟩
    cases skipped with
    | nil =>
      obtain rfl : text = rest := parts
      obtain ⟨same, same'⟩ := Prod.mk.inj (Option.some.inj (here.symm.trans result))
      rw [same, same', ← List.append_nil passed.reverse, ← before]
    | cons c skipped => cases here.symm.trans (first [] text rfl (by simp))
  · rintro rfl
    exact ⟨[], text, rfl, by simp, here, by simp⟩

/-- Where there is none at the front, the first occurrence is the one behind the first character. -/
theorem firstFrom_cons_iff {pattern : Pattern α} {passed text : Text} {c : Char}
    (nothing : pattern.readAfter passed.head? (c :: text) = none) (o : Occurrence α) :
    pattern.FirstFrom passed (c :: text) o ↔ pattern.FirstFrom (c :: passed) text o := by
  constructor
  · rintro ⟨skipped, rest, parts, before, result, first⟩
    cases skipped with
    | nil =>
      obtain rfl : c :: text = rest := parts
      cases nothing.symm.trans result
    | cons d skipped =>
      obtain ⟨rfl, behind⟩ := List.cons.inj parts
      refine ⟨skipped, rest, behind, by simp [before], by simpa using result, fun left right cut shorter => ?_⟩
      simpa using first (c :: left) right (by simp [cut]) (by simpa using shorter)
  · rintro ⟨skipped, rest, parts, before, result, first⟩
    refine ⟨c :: skipped, rest, by simp [parts], by simp [before], by simpa using result, fun left right cut shorter => ?_⟩
    cases left with
    | nil =>
      obtain rfl : c :: text = right := cut
      exact nothing
    | cons d left =>
      obtain ⟨rfl, behind⟩ := List.cons.inj cut
      simpa using first left right behind (by simpa using shorter)

theorem findFrom_eq_some_iff (pattern : Pattern α) (passed text : Text) (o : Occurrence α) :
    pattern.findFrom passed text = some o ↔ pattern.FirstFrom passed text o := by
  induction text generalizing passed with
  | nil => exact iff_of_false (by simp [findFrom]) (not_firstFrom_nil pattern passed o)
  | cons c text ih =>
    rw [findFrom]
    cases here : pattern.readAfter passed.head? (c :: text) with
    | some pair => rw [firstFrom_of_readAfter here, Option.some.injEq, eq_comm]
    | none => rw [firstFrom_cons_iff here, ← ih (c :: passed)]

/-- The occurrence found is one, and there is none to its left. -/
theorem find?_eq_some_iff (pattern : Pattern α) (text : Text) (o : Occurrence α) :
    pattern.find? text = some o ↔
      ∃ rest, text = o.before ++ rest ∧ pattern.readAfter o.before.getLast? rest = some (o.captured, o.after) ∧
        ∀ left right, text = left ++ right → left.length < o.before.length →
          pattern.readAfter left.getLast? right = none := by
  unfold find?
  rw [findFrom_eq_some_iff, FirstFrom]
  simp only [List.reverse_nil, List.nil_append, List.append_nil, List.head?_reverse]
  constructor
  · rintro ⟨skipped, rest, parts, rfl, result, first⟩
    exact ⟨rest, parts, result, first⟩
  · rintro ⟨rest, parts, result, first⟩
    exact ⟨o.before, rest, parts, rfl, result, first⟩

/-- An occurrence cuts the text into what is before it, the occurrence and what is behind it. -/
theorem find?_parts {pattern : Pattern α} {text : Text} {o : Occurrence α} (found : pattern.find? text = some o) :
    ∃ word, word ≠ [] ∧ text = o.before ++ word ++ o.after := by
  obtain ⟨rest, parts, result, _⟩ := (find?_eq_some_iff pattern text o).mp found
  obtain ⟨word, some_word, is⟩ := readAfter_advances result
  exact ⟨word, some_word, by simp [parts, is]⟩

/-- What the successive occurrences captured; the search goes on in the text behind each of them. -/
def all (pattern : Pattern α) (text : Text) : List α :=
  match _found : pattern.find? text with
  | none => []
  | some o => o.captured :: all pattern o.after
termination_by text.length
decreasing_by
  obtain ⟨word, some_word, parts⟩ := find?_parts _found
  have := List.length_pos_iff.mpr some_word
  simp only [parts, List.length_append]
  omega

end Pattern
end PatternLint
