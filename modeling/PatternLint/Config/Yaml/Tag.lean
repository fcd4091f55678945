import PatternLint.Config.Yaml.Cell
import PatternLint.Text.Escaped

/-!
# Tags and directives

A tag tells the kind of a value. It is written in full between angles, or as a handle and the rest, where the
handle stands for the start of the tag. Directives in front of a document tell its version and define handles.
-/
namespace PatternLint.Yaml

/-- Whether a character may stand in the name of a handle or of a value. -/
def isNameChar (c : Char) : Bool := c.isAlphanum || c = '_' || c = '-'

/-- Whether a character may stand in a tag; `full` tells that the tag is written in full. -/
def isTagChar (full : Bool) (c : Char) : Bool :=
  isNameChar c || (";/?:@&=+$.%!~*'()".toList).contains c || (full && (c = ',' || c = '[' || c = ']'))

/-- The bytes of a tag, where a percent sign and two hexadecimal digits stand for a byte. -/
def tagBytes? : Text → Option (List UInt8)
  | [] => some []
  | '%' :: a :: b :: text =>
    match Text.hexValue? a, Text.hexValue? b with
    | some high, some low => (tagBytes? text).map (UInt8.ofNat (16 * high + low) :: ·)
    | _, _ => none
  | c :: text => if c = '%' then none else (tagBytes? text).map (UInt8.ofNat c.toNat :: ·)

/-- The characters of a tag, at least one. -/
def tagText? (text : Text) : Option Text :=
  if text.isEmpty then none else (tagBytes? text).bind fun bytes => Text.decode? ⟨bytes.toArray⟩

/-- The handles of a document, each with what it stands for. The first with a name counts. -/
abbrev Handles := List (Text × Text)

/-- The handles that are defined without a directive. -/
def Handles.standard : Handles := [("!".toList, "!".toList), ("!!".toList, "tag:yaml.org,2002:".toList)]

def nullTag : Text := "tag:yaml.org,2002:null".toList

def truthTag : Text := "tag:yaml.org,2002:bool".toList

/-- The tag of a handle and the rest. A single exclamation mark stands for itself. -/
def Handles.tag? (handles : Handles) (text : Text) : Option Text :=
  let name := text.takeWhile isNameChar
  match text.drop name.length with
  | '!' :: rest =>
    match handles.lookup ('!' :: name ++ ['!']), tagText? rest with
    | some start, some rest => some (start ++ rest)
    | _, _ => none
  | _ =>
    if text.isEmpty then some ['!']
    else
      match handles.lookup ['!'], tagText? text with
      | some start, some rest => some (start ++ rest)
      | _, _ => none

/-- A tag behind its exclamation mark, and the cells behind it. -/
def tag? (flow : Bool) (handles : Handles) (cells : List Cell) : Option (Text × List Cell) :=
  let isFull := cells.head?.any (·.char = '<')
  let word := ((if isFull then cells.tail else cells).takeWhile fun cell => isTagChar isFull cell.char).map (·.char)
  let after := (if isFull then cells.tail else cells).drop word.length
  let rest := if isFull then after.tail else after
  if isFull && !after.head?.any (·.char = '>') then none
  else if wordEnds rest || (flow && rest.head?.any (·.char = ',')) then
    (if isFull then tagText? word else handles.tag? word).map fun tag => (tag, rest)
  else none

/-! ### Directives -/

/-- What directives tell. -/
structure Directives where
  version : Bool := false
  handles : Handles := []

/-- Whether a version is one that can be read: 1.1 or 1.2. -/
def isKnownVersion (text : Text) : Bool :=
  let major := text.takeWhile Char.isDigit
  match text.drop major.length with
  | '.' :: minor =>
    let value (digits : Text) : Nat := digits.foldl (fun n c => 10 * n + (c.toNat - '0'.toNat)) 0
    !major.isEmpty && major.length ≤ 9 && !minor.isEmpty && minor.length ≤ 9 && minor.all Char.isDigit &&
      value major = 1 && (value minor = 1 || value minor = 2)
  | _ => false

/-- Whether a text is a handle: an exclamation mark, or a name between two. -/
def isHandle (text : Text) : Bool :=
  text = ['!'] ||
    (2 ≤ text.length && text.head? = some '!' && text.getLast? = some '!' && text.tail.dropLast.all isNameChar)

/-- Adds what a directive tells, given without its percent sign and comment as the words on its line. Nothing may
    be told twice. -/
def Directives.add? (directives : Directives) : List Text → Option Directives
  | [name, version] =>
    if name = "YAML".toList && isKnownVersion version && !directives.version then
      some { directives with version := true }
    else none
  | [name, handle, start] =>
    if name = "TAG".toList && isHandle handle && start.all (isTagChar true) &&
        (directives.handles.lookup handle).isNone then
      (tagText? start).map fun start => { directives with handles := directives.handles ++ [(handle, start)] }
    else none
  | _ => none

def words (text : Text) : List Text :=
  ((Text.splitOn ' ' (text.map fun c => if c = '\t' then ' ' else c)).filter (!·.isEmpty)).takeWhile
    (·.head? ≠ some '#')

/-- Reads the directives in front of a document, where `steps` bounds their number. A directive starts its line.
    The cells that are left start with a word. -/
def directives? : (steps : Nat) → Directives → List Cell → Option (Directives × List Cell)
  | 0, _, _ => none
  | steps + 1, directives, cells =>
    match nextWord false false false cells with
    | [] => some (directives, [])
    | cell :: cells =>
      if cell.char = '%' && cell.column = 0 then
        if wordEnds cells then none
        else
          match directives.add? (words ((cells.takeWhile (·.char ≠ '\n')).map (·.char))) with
          | none => none
          | some directives => directives? steps directives (cells.dropWhile (·.char ≠ '\n'))
      else some (directives, cell :: cells)

end PatternLint.Yaml
