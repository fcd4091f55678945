import PatternLint.Diagnostic
import PatternLint.FileError
import PatternLint.Language.Delimiter
import PatternLint.Language.Effect
import PatternLint.Language.Sandbox
import PatternLint.Language.Waveform

/-!
# Findings

What a rule finds is a place and a cause. The cause fixes the severity and the wording of the diagnostic.
-/
namespace PatternLint

/-- Which closing brackets are wrong. -/
inductive Imbalance where
  /-- There are more opening than closing brackets. -/
  | missing
  /-- There are more closing than opening brackets. -/
  | extra
  deriving Repr, DecidableEq

def Imbalance.name : Imbalance → Text
  | missing => "missing".toList
  | extra => "extra".toList

/-- What is wrong at a place. -/
inductive Cause where
  | waveformAsSample (argument : Text) (wave : Waveform)
  | sandboxEscape (hatch : EscapeHatch)
  | belowRange (effect : Effect) (amount : Binary64)
  | aboveRange (effect : Effect) (amount : Binary64)
  | directPlay
  | unclosedQuote (quote : Quote)
  | unbalanced (bracket : Bracket) (imbalance : Imbalance) (count : Nat)
  | differentScales (scales : List Text)
  | unreadable (error : FileError)
  deriving Repr, DecidableEq

/-- Amounts and scales are matters of taste; all else keeps a source from running. -/
def Cause.severity : Cause → Severity
  | belowRange _ _ | aboveRange _ _ | differentScales _ => .warning
  | _ => .error

/-- A place in a source and what is wrong there. -/
structure Finding where
  /-- The line, from one. -/
  line : Nat
  /-- The column in characters, from one. -/
  column : Nat
  cause : Cause
  deriving Repr, DecidableEq

namespace Finding

def effectCall (effect : Effect) (amount : Binary64) : Text :=
  '.' :: effect.name ++ '(' :: amount.toText ++ [')']

def message (finding : Finding) : Text :=
  match finding.cause with
  | .waveformAsSample argument wave =>
    "s(\"".toList ++ argument ++ "\") is invalid. \"".toList ++ wave.name ++
      "\" is a synth waveform, not a sample. Use n() or note() with .s(\"".toList ++ wave.name ++
      "\") for synths.".toList
  | .sandboxEscape hatch =>
    "Potentially unsafe code detected (".toList ++ hatch.label ++
      "). JavaScript imports and browser APIs are not allowed.".toList
  | .belowRange effect amount =>
    effectCall effect amount ++ " is below recommended minimum of ".toList ++ (Binary64.nearest effect.least).toText
  | .aboveRange effect amount =>
    effectCall effect amount ++ " exceeds recommended maximum of ".toList ++
      (Binary64.nearest effect.greatest).toText
  | .directPlay => ".play() should not be called directly. Use the Execute button instead.".toList
  | .unclosedQuote quote =>
    "Unclosed ".toList ++ quote.name ++ " quote (".toList ++ quote.char :: ") starting on line ".toList ++
      Text.ofNat finding.line
  | .unbalanced bracket imbalance count =>
    "Unbalanced ".toList ++ bracket.name ++ ": ".toList ++ imbalance.name ++ ' ' :: Text.ofNat count ++
      " closing \"".toList ++ [bracket.closer, '"']
  | .differentScales scales =>
    "Multiple different scales detected: ".toList ++ List.intercalate ", ".toList scales ++
      ". Consider using a single scale for harmonic consistency.".toList
  | .unreadable error => "File could not be read: ".toList ++ error.message

def diagnostic (finding : Finding) : Diagnostic :=
  ⟨finding.line, finding.column, finding.message, finding.cause.severity⟩

end Finding
end PatternLint
