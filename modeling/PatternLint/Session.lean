import PatternLint.Command
import PatternLint.Config.Effective
import PatternLint.Targets

/-!
# Sessions

A session carries out one command against the files and the standard input. It ends with an outcome, or fails
before there is anything to write to the standard output. The log is not modelled: a session is one with the log
switched off.
-/
namespace PatternLint

/-- What a command is carried out against. -/
structure Session where
  files : FileSystem
  stdin : ByteArray
  color : Bool

/-- What a command leaves behind. -/
structure Outcome where
  exitCode : Nat
  stdout : Text := []
  /-- The refusal or the failure, if there is one. The log goes to the same stream and is left out: its notes on files
      that cannot be read and on patterns without files carry the time, and no exit code and no report hang on them. -/
  stderr : Text := []
  deriving Repr, DecidableEq

namespace Session

/-- Why a command fails. -/
inductive Failure where
  | config (failure : Config.Failure)
  | pattern (bad : BadPattern)
  | source (failure : Unreadable)
  | stdin (failure : Unreadable)
  deriving Repr, DecidableEq

def Failure.message : Failure → Text
  | config failure => failure.message
  | pattern bad => bad.explained
  | source failure => failure.explained
  | stdin failure => "reading source from stdin: ".toList ++ failure.explained

/-- What a failure leaves behind. -/
def Failure.outcome (color : Bool) (failure : Failure) : Outcome where
  exitCode := 2
  stderr := Style.bold.apply color (Style.red.apply color "error:".toList) ++ ' ' :: failure.message ++ ['\n']

def stdinName : Text := ['-']

/-- Whether a command reads the standard input, unless it fails before. -/
def readsStdin : Command → Bool
  | .lint request => request.paths.contains stdinName
  | .check file _ => file = stdinName
  | .version | .rules _ => false

def readStdin (session : Session) : Except Unreadable Text :=
  match Text.decode? session.stdin with
  | some text => .ok text
  | none => .error ⟨⟨"<stdin>".toList⟩, .notText⟩

/-- The text of a file or of the standard input. -/
def readSource (session : Session) (name : Text) : Except Unreadable Text :=
  if name = stdinName then session.readStdin
  else
    match session.files.read ⟨name⟩ with
    | .ok text => .ok text
    | .error error => .error ⟨⟨name⟩, error⟩

/-- The report over the files that patterns below a base stand for. -/
def reportBelow (session : Session) (base : Path) (patterns : List Text) : Except Failure Report :=
  match Targets.collect session.files base patterns with
  | .error bad => .error (.pattern bad)
  | .ok targets => .ok (Targets.lint session.files base targets)

def addStdin (session : Session) (report : Report) : Except Failure Report :=
  match session.readStdin with
  | .error failure => .error (.stdin failure)
  | .ok source => .ok ⟨report.files ++ [.ofSource stdinName source]⟩

/-- The report over paths, or over the configured patterns if there are no paths. Paths are seen from the current
    directory, the configured patterns from the root. -/
def report (session : Session) (config : Config.Effective) (paths : List Text) : Except Failure Report :=
  if paths.isEmpty then session.reportBelow config.root config.patterns
  else
    match session.reportBelow ⟨['.']⟩ (paths.filter (· ≠ stdinName)) with
    | .error failure => .error failure
    | .ok report => if paths.contains stdinName then session.addStdin report else .ok report

def overrides (request : LintRequest) : Config.Overrides where
  start := request.root
  output := request.output.map (·.name)
  denyWarnings := if request.denyWarnings then some true else none

def isFailed (denyWarnings : Bool) (summary : Summary) : Bool :=
  summary.errors > 0 || (denyWarnings && summary.warnings > 0)

/-- The files of a request, linted and reported. The notes for the log are no part of the outcome. -/
def lint (session : Session) (request : LintRequest) : Except Failure Outcome :=
  match Config.resolve session.files (overrides request) with
  | .error failure => .error (.config failure)
  | .ok config =>
    match session.report config request.paths with
    | .error failure => .error failure
    | .ok report =>
      .ok {
        exitCode := if isFailed config.denyWarnings report.summary then 1 else 0
        stdout := config.output.report session.color report ++ ['\n'] }

def check (session : Session) (file : Text) (purpose : Gate.Purpose) : Except Failure Outcome :=
  match session.readSource file with
  | .error failure => .error (.source failure)
  | .ok source =>
    match Gate.review purpose source with
    | .ok result => .ok { exitCode := 0, stdout := result.summary ++ ['\n'] }
    | .error refusal => .ok { exitCode := 1, stderr := refusal.message ++ ['\n'] }

def versionNumber : Text := "0.1.0".toList

def run (session : Session) : Command → Except Failure Outcome
  | .version => .ok { exitCode := 0, stdout := versionNumber ++ ['\n'] }
  | .lint request => session.lint request
  | .check file purpose => session.check file purpose
  | .rules output =>
    .ok { exitCode := 0, stdout := (output.getD .human).rules session.color Rule.all ++ ['\n'] }

/-- What a command leaves behind, whether it fails or not. -/
def outcome (session : Session) (command : Command) : Outcome :=
  match session.run command with
  | .ok outcome => outcome
  | .error failure => failure.outcome session.color

end Session
end PatternLint
