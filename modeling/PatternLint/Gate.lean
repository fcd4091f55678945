import PatternLint.Lint

/-!
# The gate

A source with errors is refused, for running as for publishing. The two refusals differ in their wording: the
one gives the errors, the other all diagnostics.
-/
namespace PatternLint.Gate

/-- What a source is wanted for. -/
inductive Purpose where
  | run | publish
  deriving Repr, DecidableEq

/-- The refusal of a source. -/
structure Refusal where
  purpose : Purpose
  result : LintResult
  deriving Repr, DecidableEq

namespace Refusal

def details (refusal : Refusal) : Text :=
  match refusal.purpose with
  | .run => refusal.result.reasons
  | .publish => refusal.result.summary

def message (refusal : Refusal) : Text :=
  match refusal.purpose with
  | .run => "Code validation failed:\n".toList ++ refusal.details
  | .publish => "Please fix the lint errors before uploading\n".toList ++ refusal.details

end Refusal

/-- Lints a source and refuses it if it has errors. -/
def review (purpose : Purpose) (source : Text) : Except Refusal LintResult :=
  if (Lint.check source).ok then .ok (Lint.check source) else .error ⟨purpose, Lint.check source⟩

end PatternLint.Gate
