import PatternLint.Json.Value
import PatternLint.Report

/-!
# Reports in JSON

What a report and the catalogue of rules look like in JSON: objects whose members always come in the same
order.
-/
namespace PatternLint.Json

def ofDiagnostic (diagnostic : Diagnostic) : Json :=
  object [("line".toList, nat diagnostic.line), ("column".toList, nat diagnostic.column),
    ("message".toList, string diagnostic.message), ("severity".toList, string diagnostic.severity.name)]

def ofFileReport (entry : FileReport) : Json :=
  object [("file".toList, string entry.file), ("ok".toList, bool entry.result.ok),
    ("diagnostics".toList, list (entry.result.diagnostics.map ofDiagnostic))]

/-- The counts of a report in JSON. -/
def ofSummary (summary : Summary) : Json :=
  object [("errors".toList, nat summary.errors), ("warnings".toList, nat summary.warnings),
    ("files".toList, nat summary.files)]

def ofReport (report : Report) : Json :=
  object [("files".toList, list (report.files.map ofFileReport)), ("summary".toList, ofSummary report.summary)]

def ofRule (rule : Rule) : Json :=
  object [("id".toList, string rule.id), ("severity".toList, string rule.severity.name),
    ("summary".toList, string rule.summary)]

def ofRules (rules : List Rule) : Json := object [("rules".toList, list (rules.map ofRule))]

end PatternLint.Json
