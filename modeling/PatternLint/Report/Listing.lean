import PatternLint.Report
import PatternLint.Style

/-!
# Listings

Reports and the catalogue of rules for people to read, plain or in colours.
-/
namespace PatternLint

namespace Severity

def style : Severity → Style
  | error => .red
  | warning => .yellow

def icon : Severity → Text
  | error => "✖".toList
  | warning => "▲".toList

def tag : Severity → Text
  | error => "⟦error⟧".toList
  | warning => "⟦warn⟧".toList

end Severity

namespace Listing

/-- The line of a diagnostic: mark, tag, place and message. -/
def diagnosticLine (color : Bool) (file : Text) (diagnostic : Diagnostic) : Text :=
  let style := diagnostic.severity.style
  let place := file ++ ':' :: Text.ofNat diagnostic.line ++ ':' :: Text.ofNat diagnostic.column
  style.apply color diagnostic.severity.icon ++ ' ' ::
    Style.bold.apply color (style.apply color diagnostic.severity.tag) ++ ' ' ::
    Style.bold.apply color place ++ " — ".toList ++ diagnostic.message

/-- The line with the counts of a report. -/
def summaryLine (color : Bool) (summary : Summary) : Text :=
  Style.bold.apply color ("— Summary — errors=".toList ++ Text.ofNat summary.errors ++ " warnings=".toList ++
    Text.ofNat summary.warnings ++ " files=".toList ++ Text.ofNat summary.files)

/-- A report, one diagnostic a line, with the counts on the last line. -/
def ofReport (color : Bool) (report : Report) : Text :=
  Text.unlines ((report.files.flatMap fun entry => entry.result.diagnostics.map (diagnosticLine color entry.file)) ++
    [summaryLine color report.summary])

/-- The line of a rule: identifier and severity in columns, and the summary. -/
def ruleLine (color : Bool) (rule : Rule) : Text :=
  Style.bold.apply color (rule.id.padRight 20) ++ ' ' ::
    rule.severity.style.apply color (rule.severity.name.padRight 7) ++ ' ' :: rule.summary

def ofRules (color : Bool) (rules : List Rule) : Text := Text.unlines (rules.map (ruleLine color))

end Listing
end PatternLint
