import PatternLint.Config.Root
import PatternLint.Config.Toml
import PatternLint.Config.Yaml
import PatternLint.OutputForm

/-!
# The effective configuration

What counts in the end: an override comes before the configuration file of the root, and that before the
defaults. A file that cannot be read or understood is an error, whatever the overrides, while the form of output
that the file names counts only if it is not overridden.
-/
namespace PatternLint.Config

/-- Why there is no effective configuration. -/
inductive Failure where
  | unreadable (failure : Unreadable)
  /-- The file is not in its format, or holds other keys or values than it may. -/
  | malformed (path : Path)
  | unknownOutput (root : Path) (output : Text)
  deriving Repr, DecidableEq

/-- How a failure is told. Behind the path of a malformed file stands what the parser of its format has to say, which is
    not modelled: the message ends with the path. -/
def Failure.message : Failure → Text
  | unreadable failure => failure.explained
  | malformed path => "invalid config ".toList ++ path.text
  | unknownOutput root output =>
    "invalid config ".toList ++ root.text ++ ": unknown output mode '".toList ++ output ++
      "' (expected human|json)".toList

def Format.settings? (text : Text) : Format → Option Settings
  | toml => Toml.settings? text
  | yaml => Yaml.settings? text

def settings (files : FileSystem) (path : Path) (format : Format) : Except Failure Settings :=
  match files.read path with
  | .error error => .error (.unreadable ⟨path, error⟩)
  | .ok text =>
    match format.settings? text with
    | none => .error (.malformed path)
    | some settings => .ok settings

/-- The settings of the configuration file of a directory, if it has one. -/
def load (files : FileSystem) (directory : Path) : Except Failure (Option Settings) :=
  match file? files directory with
  | none => .ok none
  | some (path, format) => (settings files path format).map some

/-- What is set for one run. -/
structure Overrides where
  start : Option Text := none
  output : Option Text := none
  denyWarnings : Option Bool := none
  deriving Repr, DecidableEq

/-- The root for a run; its start is the current directory if no other is set. -/
def Overrides.root (overrides : Overrides) (files : FileSystem) : Path :=
  Config.root files ⟨overrides.start.getD ['.']⟩

/-- A configuration with every setting. -/
structure Effective where
  root : Path
  output : OutputForm
  patterns : List Text
  denyWarnings : Bool
  deriving Repr, DecidableEq

/-- The patterns to lint by if none are set. -/
def defaultPatterns : List Text := ["**/*.strudel".toList]

/-- The patterns to lint by: those set, if there are any. -/
def patterns (settings : Settings) : List Text :=
  match settings.patterns with
  | some (pattern :: patterns) => pattern :: patterns
  | _ => defaultPatterns

/-- The configuration that follows from overrides and the settings of the root. -/
def merge (root : Path) (overrides : Overrides) (settings : Settings) : Except Failure Effective :=
  let output := (overrides.output <|> settings.output).getD OutputForm.human.name
  match OutputForm.ofName? output with
  | none => .error (.unknownOutput root output)
  | some form =>
    .ok {
      root := root
      output := form
      patterns := patterns settings
      denyWarnings := (overrides.denyWarnings <|> settings.denyWarnings).getD false }

/-- The configuration that follows from overrides and the files. -/
def resolve (files : FileSystem) (overrides : Overrides) : Except Failure Effective :=
  match load files (overrides.root files) with
  | .error failure => .error failure
  | .ok settings => merge (overrides.root files) overrides (settings.getD {})

end PatternLint.Config
