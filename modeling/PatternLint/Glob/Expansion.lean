import PatternLint.FileSystem
import PatternLint.Glob.Pattern

/-!
# Expansion of glob patterns

The paths that match a pattern, found component by component. A literal component is followed as it is
written, a wildcard is matched with the names in a directory, and two stars with all directories below. What is
found below the current directory is spelled without a dot in front.
-/
namespace PatternLint.Glob

def child (directory : Path) (name : Text) : Path :=
  if directory.isHere then ⟨name⟩ else directory.join ⟨name⟩

/-- Whether a component is the directory itself or the one above. -/
def isDots (text : Text) : Bool := text = ['.'] || text = ['.', '.']

/-- The entries above and at a directory that a wildcard matches: they are tried only if it starts with a dot. -/
def dotsMatching (tokens : List Token) : List Text :=
  if tokens.head? = some (.char '.') then [['.', '.'], ['.']].filter (accepts tokens) else []

/-- The paths that match the components below a directory. -/
def expand (files : FileSystem) : List Piece → Path → List Path
  | [], path => [path]
  | .literal text :: pieces, directory =>
    let next := child directory text
    let isThere := if isDots text then (files.directory? directory).isSome else files.exists? next
    if isThere then expand files pieces next else []
  | .wildcard tokens :: pieces, directory =>
    match files.directory? directory with
    | none => []
    | some location =>
      ((dotsMatching tokens).flatMap fun dots => expand files pieces (directory.join ⟨dots⟩)) ++
        ((files.names location).filter fun name => accepts tokens name.text).flatMap fun name =>
          expand files pieces (child directory name.text)
  | .directories :: pieces, directory =>
    match files.directory? directory with
    | none => []
    | some location =>
      (files.below location).flatMap fun entry => expandEntry (entry.drop location.length) directory pieces
where
  /-- The paths that match the components behind two stars, where an entry below the directory is the first
      that they are matched with. Further double stars add nothing; if nothing follows, only directories
      match. -/
  expandEntry (way : Location) (directory : Path) : List Piece → List Path
    | [] =>
      let path := way.foldl (fun path name => child path name.text) directory
      if (files.directory? path).isSome then [path] else []
    | .directories :: pieces => expandEntry way directory pieces
    | piece :: pieces =>
      let path := way.foldl (fun path name => child path name.text) directory
      if way.getLast?.any (fun name => piece.matches name.text) then expand files pieces path else []

def Pattern.files (pattern : Pattern) (files : FileSystem) : List Path :=
  if pattern.onlyDirectories then []
  else (expand files pattern.pieces ⟨if pattern.isAbsolute then ['/'] else ['.']⟩).filter files.isFile

end PatternLint.Glob
