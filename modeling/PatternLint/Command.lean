import PatternLint.Gate
import PatternLint.OutputForm

/-!
# Commands

What can be asked of the linter, and why a command line asks for nothing.
-/
namespace PatternLint

/-- What to lint and how. -/
structure LintRequest where
  root : Option Text := none
  output : Option OutputForm := none
  denyWarnings : Bool := false
  /-- Paths and patterns, a dash for the standard input. If there are none, the configured patterns count. -/
  paths : List Text := []
  deriving Repr, DecidableEq

/-- A command. -/
inductive Command where
  | version
  | lint (request : LintRequest)
  | check (file : Text) (purpose : Gate.Purpose)
  | rules (output : Option OutputForm)
  deriving Repr, DecidableEq

/-- Why a command line is no command. -/
inductive UsageError where
  | help
  | version
  | nothing
  | unknownCommand
  /-- An option lacks its value, or has one that is not among those possible. -/
  | invalidValue
  /-- There is no such option, or no place for such an operand. -/
  | unknownArgument
  | missingOperand
  | repeatedOption
  /-- A value is given to an option that takes none. -/
  | surplusValue
  deriving Repr, DecidableEq

/-- The exit code for a command line that is no command: help and version are told, all else is an error. -/
def UsageError.exitCode : UsageError → Nat
  | help | version => 0
  | _ => 2

end PatternLint
