import PatternLint.Glob.Expansion
import PatternLint.Path.Relative
import PatternLint.Report

/-!
# Targets

The files to lint are named by paths and glob patterns below a base. A path stands for itself, whether there is
a file or not; a pattern stands for the files that match it. Targets are in the order of paths, and of equal
paths only the first is kept. A target is reported under its name as seen from the base.
-/
namespace PatternLint

/-- A glob pattern that is refused. -/
structure BadPattern where
  pattern : Text
  error : Glob.SyntaxError
  deriving Repr, DecidableEq

namespace BadPattern

/-- The wording of a refusal, without the reason. -/
def message (bad : BadPattern) : Text := "bad glob pattern '".toList ++ bad.pattern ++ ['\'']

def explained (bad : BadPattern) : Text := bad.message ++ ": ".toList ++ bad.error.message

end BadPattern

namespace Targets

/-- The paths that a path or pattern stands for. -/
def ofPattern (files : FileSystem) (base : Path) (pattern : Text) : Except BadPattern (List Path) :=
  if Glob.isPattern pattern then
    match Glob.Pattern.ofText (base.join ⟨pattern⟩).text with
    | .error error => .error ⟨pattern, error⟩
    | .ok glob => .ok (glob.files files)
  else .ok [base.join ⟨pattern⟩]

/-- The paths that paths and patterns stand for, in the order given. -/
def ofPatterns (files : FileSystem) (base : Path) : List Text → Except BadPattern (List Path)
  | [] => .ok []
  | pattern :: patterns =>
    match ofPattern files base pattern with
    | .error bad => .error bad
    | .ok found =>
      match ofPatterns files base patterns with
      | .error bad => .error bad
      | .ok more => .ok (found ++ more)

/-- The targets that paths and patterns stand for, in the order of paths and each once. -/
def collect (files : FileSystem) (base : Path) (patterns : List Text) : Except BadPattern (List Path) :=
  match ofPatterns files base patterns with
  | .error bad => .error bad
  | .ok found => .ok (Ordered.ofList Path.order found)

def nameFrom (base target : Path) : Text := ((target.relativeTo? base).getD target).text

/-- The entry of a target: its diagnostics, or why it cannot be read. -/
def entry (files : FileSystem) (base target : Path) : FileReport :=
  match files.read target with
  | .ok source => .ofSource (nameFrom base target) source
  | .error error => .unreadable (nameFrom base target) error

/-- Lints targets. The entries are in the order of their names. -/
def lint (files : FileSystem) (base : Path) (targets : List Path) : Report :=
  ⟨(targets.map (entry files base)).mergeSort fun a b => (compare a.file b.file).isLE⟩

end Targets
end PatternLint
