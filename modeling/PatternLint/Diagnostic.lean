import PatternLint.Text.Basic

/-!
# Diagnostics

What is reported about a source: a place, a message and a severity. A lint result is the list of its
diagnostics, in the order of discovery, and is `ok` when none of them is an error.
-/
namespace PatternLint

/-- How bad a diagnostic is. Only errors keep a source from running. -/
inductive Severity where
  | error | warning
  deriving Repr, DecidableEq

def Severity.name : Severity → Text
  | error => "error".toList
  | warning => "warning".toList

def Severity.ofName? (name : Text) : Option Severity :=
  [Severity.error, Severity.warning].find? fun severity => severity.name = name

/-- A report about one place of a source. -/
structure Diagnostic where
  /-- The line, from one. -/
  line : Nat
  /-- The column in characters, from one. -/
  column : Nat
  message : Text
  severity : Severity
  deriving Repr, DecidableEq

namespace Diagnostic

def isError (diagnostic : Diagnostic) : Bool := diagnostic.severity = .error

/-- A place and message without severity. -/
def located (diagnostic : Diagnostic) : Text :=
  "Line ".toList ++ Text.ofNat diagnostic.line ++ ": ".toList ++ diagnostic.message

/-- A diagnostic as one line: severity in capitals, place and message. -/
def tagged (diagnostic : Diagnostic) : Text :=
  '[' :: diagnostic.severity.name.map Char.toUpper ++ "] ".toList ++ diagnostic.located

end Diagnostic

/-- The diagnostics of one source, in the order of discovery. -/
structure LintResult where
  diagnostics : List Diagnostic
  deriving Repr, DecidableEq

namespace LintResult

def errors (result : LintResult) : List Diagnostic := result.diagnostics.filter (·.isError)

def warnings (result : LintResult) : List Diagnostic := result.diagnostics.filter (!·.isError)

def ok (result : LintResult) : Bool := !result.diagnostics.any (·.isError)

/-- All diagnostics, one a line; a sentence of its own if there are none. -/
def summary (result : LintResult) : Text :=
  if result.diagnostics.isEmpty then "No issues found.".toList
  else Text.unlines (result.diagnostics.map (·.tagged))

/-- The errors without severity, one a line. -/
def reasons (result : LintResult) : Text := Text.unlines (result.errors.map (·.located))

end LintResult
end PatternLint
