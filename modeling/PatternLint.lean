import PatternLint.Main
import PatternLint.Proofs.CommandLines
import PatternLint.Proofs.Comments
import PatternLint.Proofs.Configuration
import PatternLint.Proofs.DefaultPattern
import PatternLint.Proofs.Edits
import PatternLint.Proofs.EscapeHatches
import PatternLint.Proofs.ExactAmounts
import PatternLint.Proofs.ExitCode
import PatternLint.Proofs.ExplicitPaths
import PatternLint.Proofs.Flags
import PatternLint.Proofs.InsideBase
import PatternLint.Proofs.JsonReports
import PatternLint.Proofs.LineFindings
import PatternLint.Proofs.NamedFiles
import PatternLint.Proofs.NumberTexts
import PatternLint.Proofs.OpenQuote
import PatternLint.Proofs.PlaybackColumn
import PatternLint.Proofs.ReportLines
import PatternLint.Proofs.ResultShape
import PatternLint.Proofs.Root
import PatternLint.Proofs.SkippedLines
import PatternLint.Proofs.StandaloneCalls
import PatternLint.Proofs.Verdict
import PatternLint.Proofs.BracketReports
import PatternLint.Proofs.QuotedCalls
import PatternLint.Proofs.LongerTexts
import PatternLint.Proofs.ScaleCalls
import PatternLint.Proofs.LongerLines
import PatternLint.Proofs.Refusals
import PatternLint.Proofs.TargetSets
import PatternLint.Proofs.RefusedPatterns
import PatternLint.Proofs.FileEntries
import PatternLint.Proofs.NearestMark
import PatternLint.Proofs.Colors
import PatternLint.Proofs.Columns
