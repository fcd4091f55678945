import PatternLint.Command.Arguments
import PatternLint.Session

/-!
# The program

Takes a snapshot of the files, carries out the command of the command line against it and writes what the command
leaves behind. The snapshot holds what lies below the current directory, and the files and directories elsewhere
that the command line names. Listings have colours unless the environment sets `NO_COLOR`.
-/
namespace PatternLint.Program

def depth : Nat := 64

/-- What lies below a directory. A link to a directory counts as an empty one, and what cannot be read is left
    out. -/
def below : (depth : Nat) → IO.FS.DirEntry → Location → IO (List (Location × Entry))
  | 0, _, _ => pure []
  | depth + 1, directory, location => do
    let children ← try directory.path.readDir catch _ => pure #[]
    let mut entries := []
    for child in children do
      if let some name := Name.ofText? child.fileName.toList then
        let place := location ++ [name]
        try
          match (← child.path.metadata).type with
          | .dir =>
            entries := (place, .directory) :: entries
            if (← child.path.symlinkMetadata).type == .dir then
              entries := (← below depth child place) ++ entries
          | .file => entries := (place, .file (← IO.FS.readBinFile child.path)) :: entries
          | _ => pure ()
        catch _ => pure ()
    pure entries

/-- The file or directory that an argument names outside the current directory, with what lies below it. -/
def elsewhere (here : Location) (argument : String) : IO (List (Location × Entry)) := do
  try
    let path ← IO.FS.realPath argument
    match Path.location? ⟨path.toString.toList⟩, path.parent, path.fileName with
    | some location, some parent, some name =>
      if here.isPrefixOf location then pure []
      else if ← path.isDir then
        pure ((location, .directory) :: (← below depth ⟨parent, name⟩ location))
      else pure [(location, .file (← IO.FS.readBinFile path))]
    | _, _, _ => pure []
  catch _ => pure []

def snapshot (arguments : List String) : IO FileSystem := do
  let directory ← IO.currentDir
  let here := (Path.location? ⟨directory.toString.toList⟩).getD []
  let inside ← below depth ⟨directory, "."⟩ here
  let outside ← arguments.mapM (elsewhere here)
  pure ⟨inside ++ outside.flatten ++ [(here, .directory)], here⟩

def usage : String :=
  "lint [--repo-root DIR] [--output human|json] [--deny-warnings] [PATH...]\n" ++
  "check [--publish] FILE\n" ++
  "rules [--output human|json]\n" ++
  "version\n"

/-- Tells what a command line that is no command asks for, or what else can be asked for. -/
def tell (error : UsageError) : IO Unit :=
  match error with
  | .help => IO.print usage
  | .version => IO.println (String.ofList Session.versionNumber)
  | _ => IO.eprint usage

def run (arguments : List String) : IO UInt32 := do
  match Command.ofArguments (arguments.map String.toList) with
  | .error error =>
    tell error
    pure error.exitCode.toUInt32
  | .ok command =>
    let files ← snapshot arguments
    let stdin ← if Session.readsStdin command then (← IO.getStdin).readBinToEnd else pure ByteArray.empty
    let color := (← IO.getEnv "NO_COLOR").isNone
    let outcome := Session.outcome ⟨files, stdin, color⟩ command
    IO.print (String.ofList outcome.stdout)
    IO.eprint (String.ofList outcome.stderr)
    pure outcome.exitCode.toUInt32

end PatternLint.Program

def main (arguments : List String) : IO UInt32 := PatternLint.Program.run arguments
