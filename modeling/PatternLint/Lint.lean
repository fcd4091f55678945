import PatternLint.Rule.Lines
import PatternLint.Rule.Sources

/-!
# Linting a source

Some rules look at one line at a time and skip blank and comment lines, the others look at the whole source. The
findings of a source are those of the line rules, line by line, and then those of the rules about the whole source.
-/
namespace PatternLint

/-- A rule about single lines. -/
inductive LineRule where
  | sample | escape | range | playback
  deriving Repr, DecidableEq

/-- A rule about the source as a whole. -/
inductive SourceRule where
  | quotes | brackets | scales
  deriving Repr, DecidableEq

namespace LineRule

/-- The rules about lines, in the order they are applied to a line. -/
def all : List LineRule := [sample, escape, range, playback]

def findings : LineRule → Line → List Finding
  | sample => Sample.findings
  | escape => Escape.findings
  | range => Range.findings
  | playback => Playback.findings

end LineRule

namespace SourceRule

/-- The rules about the whole source, in the order they are applied. -/
def all : List SourceRule := [quotes, brackets, scales]

def findings : SourceRule → Text → List Finding
  | quotes => Quotes.findings
  | brackets => Brackets.findings
  | scales => Scales.findings

end SourceRule

/-- A rule. -/
inductive Rule where
  | onLine (rule : LineRule)
  | onSource (rule : SourceRule)
  deriving Repr, DecidableEq

namespace Rule

/-- The catalogue of rules, in the order they are applied. -/
def all : List Rule := LineRule.all.map onLine ++ SourceRule.all.map onSource

def id : Rule → Text
  | onLine .sample => "synth-as-sample".toList
  | onLine .escape => "unsafe-escape".toList
  | onLine .range => "param-range".toList
  | onLine .playback => "direct-play".toList
  | onSource .quotes => "unclosed-quote".toList
  | onSource .brackets => "unbalanced-brackets".toList
  | onSource .scales => "scale-consistency".toList

def severity : Rule → Severity
  | onLine .range | onSource .scales => .warning
  | _ => .error

def summary : Rule → Text
  | onLine .sample => "s(\"<waveform>\") plays a sample; waveforms need .s() on a note pattern".toList
  | onLine .escape => "imports, eval, Function, fetch and browser globals are not allowed".toList
  | onLine .range => "distort, resonance, room and lpf literals outside their recommended range".toList
  | onLine .playback => ".play() is reserved for the engine's execute trigger".toList
  | onSource .quotes => "string literal opened with \", ' or \x60 is never closed".toList
  | onSource .brackets => "(), [] or \x7b\x7d have missing or extra closing tokens".toList
  | onSource .scales => "more than one distinct .scale() value in the same source".toList

def ofId? (id : Text) : Option Rule := all.find? fun rule => rule.id = id

end Rule

/-! ### The phases -/

namespace Lint

/-- What the line rules find on a line, unless it is skipped. -/
def lineFindings (line : Line) : List Finding :=
  if line.isSkipped then [] else LineRule.all.flatMap fun rule => rule.findings line

def linePhase (source : Text) : List Finding := (Line.ofSource source).flatMap lineFindings

def sourcePhase (source : Text) : List Finding := SourceRule.all.flatMap fun rule => rule.findings source

/-- All findings of a source, in the order of discovery. -/
def findings (source : Text) : List Finding := linePhase source ++ sourcePhase source

def check (source : Text) : LintResult := ⟨(findings source).map (·.diagnostic)⟩

end Lint
end PatternLint
