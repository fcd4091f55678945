import PatternLint.Text.Reader

/-!
# The sandbox

The words that reach outside the sandbox a pattern runs in, and what must follow a word for it to count.
-/
namespace PatternLint

/-- A construct that reaches outside the sandbox. -/
inductive EscapeHatch where
  | importing | require | eval | function | window | document | fetch | httpRequest
  deriving Repr, DecidableEq

namespace EscapeHatch

/-- Every construct; of several on a line the first in this list is reported. -/
def all : List EscapeHatch := [importing, require, eval, function, window, document, fetch, httpRequest]

def label : EscapeHatch → Text
  | importing => "import".toList
  | require => "require(".toList
  | eval => "eval(".toList
  | function => "Function(".toList
  | window => "window.".toList
  | document => "document.".toList
  | fetch => "fetch(".toList
  | httpRequest => "XMLHttpRequest".toList

/-- A word and at least one blank. -/
def spaced (word text : Text) : Option Text :=
  match Reader.literal word text with
  | some (c :: rest) => if isBlank c then some rest else none
  | _ => none

/-- Reads a construct at the front of a text: a statement word before a blank, a word that is called, an object
    whose member is taken, or a class name. -/
def read : EscapeHatch → Text → Option Text
  | importing => spaced "import".toList
  | require => Reader.opening "require".toList
  | eval => Reader.opening "eval".toList
  | function => Reader.opening "Function".toList
  | window => Reader.literal "window.".toList
  | document => Reader.literal "document.".toList
  | fetch => Reader.opening "fetch".toList
  | httpRequest => Reader.literal "XMLHttpRequest".toList

theorem literal_advances {word text after : Text} (some_word : word ≠ []) (read : Reader.literal word text = some after) :
    ∃ front, front ≠ [] ∧ text = front ++ after :=
  ⟨word, some_word, Reader.literal_eq_some_iff.mp read⟩

theorem spaced_advances {word text after : Text} (read : spaced word text = some after) :
    ∃ front, front ≠ [] ∧ text = front ++ after := by
  unfold spaced at read
  split at read
  · next c rest start =>
    split at read
    · simp only [Option.some.injEq] at read
      subst read
      exact ⟨word ++ [c], by simp, by simpa using Reader.literal_eq_some_iff.mp start⟩
    · simp at read
  · simp at read

theorem read_advances {hatch : EscapeHatch} {text after : Text} (result : hatch.read text = some after) :
    ∃ front, front ≠ [] ∧ text = front ++ after := by
  cases hatch with
  | importing => exact spaced_advances result
  | require => exact Reader.opening_advances result
  | eval => exact Reader.opening_advances result
  | function => exact Reader.opening_advances result
  | window => exact literal_advances (by simp) result
  | document => exact literal_advances (by simp) result
  | fetch => exact Reader.opening_advances result
  | httpRequest => exact literal_advances (by simp) result

/-- A construct as a pattern to search for; it captures nothing. -/
def pattern (hatch : EscapeHatch) : Pattern Unit where
  read text := (hatch.read text).map fun after => ((), after)
  advances result := by
    obtain ⟨after', read, same⟩ := Option.map_eq_some_iff.mp result
    cases same
    exact read_advances read

end EscapeHatch
end PatternLint
