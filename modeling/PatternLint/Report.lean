import PatternLint.Lint

/-!
# Reports

A report has an entry for each file, in some order, and counts what the entries hold.
-/
namespace PatternLint

/-- The diagnostics of one file, under the name it is reported by. -/
structure FileReport where
  file : Text
  result : LintResult
  deriving Repr, DecidableEq

def FileReport.ofSource (name source : Text) : FileReport := ⟨name, Lint.check source⟩

/-- The entry of a file that cannot be read: a single error at its start. -/
def FileReport.unreadable (name : Text) (error : FileError) : FileReport :=
  ⟨name, ⟨[Finding.diagnostic ⟨1, 1, .unreadable error⟩]⟩⟩

/-- What a report counts. -/
structure Summary where
  errors : Nat
  warnings : Nat
  files : Nat
  deriving Repr, DecidableEq

/-- A report over files. -/
structure Report where
  files : List FileReport
  deriving Repr, DecidableEq

namespace Report

def diagnostics (report : Report) : List Diagnostic := report.files.flatMap (·.result.diagnostics)

/-- The counts of a report. -/
def summary (report : Report) : Summary where
  errors := report.diagnostics.countP (·.isError)
  warnings := report.diagnostics.countP (!·.isError)
  files := report.files.length

end Report
end PatternLint
