import PatternLint.FileError
import PatternLint.Path.Basic

/-!
# File systems

A file system is given by a list of entries at locations, and every such list is one: what lies on the way to
an entry is a directory. A path is followed step by step from the top or from the current directory; each step
must start in a directory. Two dots lead to the directory above, and at the top stay there. There are no links, and
every entry may be read.
-/
namespace PatternLint

/-! ### Ordered lists

Sorting by a comparison and keeping the first of the elements that compare equal.
-/

namespace Ordered

variable {α : Type}

/-- Removes each element that compares equal to the one kept before it. -/
def dropRepeats (compare : α → α → Ordering) : List α → List α
  | [] => []
  | [a] => [a]
  | a :: b :: list =>
    if compare a b = .eq then dropRepeats compare (a :: list) else a :: dropRepeats compare (b :: list)
termination_by list => list.length

/-- The elements of a list in ascending order; of several that compare equal only the first. -/
def ofList (compare : α → α → Ordering) (list : List α) : List α :=
  dropRepeats compare (list.mergeSort fun a b => (compare a b).isLE)

end Ordered

/-! ### Names and entries -/

def isEntryName (text : Text) : Bool :=
  !text.isEmpty && !text.contains '/' && !text.contains '\x00' && text ≠ ['.'] && text ≠ ['.', '.']

/-- The name of an entry of a directory. -/
structure Name where
  text : Text
  isName : isEntryName text = true
  deriving DecidableEq

def Name.ofText? (text : Text) : Option Name :=
  if isName : isEntryName text = true then some ⟨text, isName⟩ else none

/-- A place in a file system: the names on the way from the top. -/
abbrev Location := List Name

/-- The names along a path, if they are all that counts on it. -/
def Path.location? (path : Path) : Option Location :=
  (path.segments.filter (!Path.isVoid ·)).mapM Name.ofText?

/-- What can be at a location. -/
inductive Entry where
  | file (contents : ByteArray)
  | directory

/-- The failure to read the file at a path. -/
structure Unreadable where
  path : Path
  error : FileError
  deriving Repr, DecidableEq

namespace Unreadable

/-- The wording of a failure, without the reason. -/
def message (failure : Unreadable) : Text := "failed to read ".toList ++ failure.path.text

def explained (failure : Unreadable) : Text := failure.message ++ ": ".toList ++ failure.error.message

end Unreadable

/-- A file system and the current directory. -/
structure FileSystem where
  /-- What is at some locations. If there are several entries for a location, the first counts. -/
  entries : List (Location × Entry)
  here : Location

namespace FileSystem

/-- Locations in ascending order: a directory before what is in it, names in the order of their characters. -/
def order (a b : Location) : Ordering := compare (a.map (·.text)) (b.map (·.text))

def isBelow (top location : Location) : Bool := top.isPrefixOf location && top.length < location.length

def entry? (files : FileSystem) (location : Location) : Option Entry :=
  if location.isEmpty || files.entries.any fun (other, _) => isBelow location other then some .directory
  else (files.entries.find? fun (other, _) => other = location).map (·.2)

/-- The locations on the way from the top to a location, which is the last of them. -/
def way (location : Location) : List Location := (List.range location.length).map fun n => location.take (n + 1)

/-- All locations where there is something, the top excepted, in ascending order. -/
def locations (files : FileSystem) : List Location :=
  Ordered.ofList order (files.entries.flatMap fun (location, _) => way location)

/-- The locations below a location, each directory followed by what is in it. -/
def below (files : FileSystem) (top : Location) : List Location := files.locations.filter (isBelow top)

/-- The names in a directory, in ascending order. -/
def names (files : FileSystem) (directory : Location) : List Name :=
  (files.below directory).filterMap fun location =>
    if location.length = directory.length + 1 then location.getLast? else none

def step (files : FileSystem) (location : Location) (segment : Text) : Except FileError Location :=
  match files.entry? location with
  | none => .error .notFound
  | some (.file _) => .error .notDirectory
  | some .directory =>
    if Path.isVoid segment then .ok location
    else if segment = ['.', '.'] then .ok location.dropLast
    else
      match Name.ofText? segment with
      | some name => .ok (location ++ [name])
      | none => .error .nulInPath

def walk (files : FileSystem) : Location → List Text → Except FileError Location
  | location, [] => .ok location
  | location, segment :: segments =>
    match files.step location segment with
    | .error error => .error error
    | .ok next => walk files next segments

def locate (files : FileSystem) (path : Path) : Except FileError (Location × Entry) :=
  if path.text.contains '\x00' then .error .nulInPath
  else if path.text.isEmpty then .error .notFound
  else
    match files.walk (if path.isAbsolute then [] else files.here) path.segments with
    | .error error => .error error
    | .ok location =>
      match files.entry? location with
      | none => .error .notFound
      | some entry => .ok (location, entry)

def exists? (files : FileSystem) (path : Path) : Bool := (files.locate path).toOption.isSome

def isFile (files : FileSystem) (path : Path) : Bool :=
  match files.locate path with
  | .ok (_, .file _) => true
  | _ => false

def directory? (files : FileSystem) (path : Path) : Option Location :=
  match files.locate path with
  | .ok (location, .directory) => some location
  | _ => none

def read (files : FileSystem) (path : Path) : Except FileError Text :=
  match files.locate path with
  | .error error => .error error
  | .ok (_, .directory) => .error .isDirectory
  | .ok (_, .file contents) =>
    match Text.decode? contents with
    | some text => .ok text
    | none => .error .notText

end FileSystem
end PatternLint
