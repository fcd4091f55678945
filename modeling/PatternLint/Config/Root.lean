import PatternLint.FileSystem

/-!
# The root

A configuration file belongs to a directory, the root: the nearest one, from a start upwards along the spelling
of its path, that holds a configuration file or a repository. If there is none, the start is the root.
-/
namespace PatternLint.Config

/-- How a configuration file is written. -/
inductive Format where
  | toml | yaml
  deriving Repr, DecidableEq

/-- The names of configuration files. If a directory holds several of them, the first counts. -/
def fileNames : List (Text × Format) :=
  [("strudel-lint.toml".toList, .toml), ("strudel-lint.yaml".toList, .yaml), ("strudel-lint.yml".toList, .yaml)]

def marks : List Text := fileNames.map (·.1) ++ [".git".toList]

def isMarked (files : FileSystem) (directory : Path) : Bool :=
  marks.any fun mark => files.exists? (directory.join ⟨mark⟩)

def root (files : FileSystem) (start : Path) : Path := (start.ancestors.find? (isMarked files)).getD start

def file? (files : FileSystem) (directory : Path) : Option (Path × Format) :=
  (fileNames.map fun (name, format) => (directory.join ⟨name⟩, format)).find? fun (path, _) => files.exists? path

end PatternLint.Config
