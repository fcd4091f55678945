import PatternLint.Text.Basic

/-!
# File errors

Why a file cannot be read.
-/
namespace PatternLint

/-- Why a file cannot be read. -/
inductive FileError where
  /-- A name on the path does not exist. -/
  | notFound
  /-- The path passes through a file as if it were a directory. -/
  | notDirectory
  /-- The path is that of a directory. -/
  | isDirectory
  /-- The bytes of the file are no UTF-8. -/
  | notText
  /-- The path holds a NUL character, which no file name can. -/
  | nulInPath
  deriving Repr, DecidableEq

def FileError.message : FileError → Text
  | notFound => "No such file or directory (os error 2)".toList
  | notDirectory => "Not a directory (os error 20)".toList
  | isDirectory => "Is a directory (os error 21)".toList
  | notText => "stream did not contain valid UTF-8".toList
  | nulInPath => "file name contained an unexpected NUL byte".toList

end PatternLint
