import PatternLint.Config.Yaml.Cell
import PatternLint.Text.Escaped

/-!
# Scalars on lines

Scalars that are plain or in quotes. A scalar may go on over several lines; a single line break in it counts as
a blank, and of several one is dropped.
-/
namespace PatternLint.Yaml

/-- How a scalar is written. -/
inductive ScalarStyle where
  /-- Without quotes. Only such a scalar can be absent. -/
  | plain
  /-- In quotes or as a folded block. -/
  | quoted
  | literal
  deriving Repr, DecidableEq

/-- A scalar. -/
structure Scalar where
  text : Text
  style : ScalarStyle
  tag : Option Text := none
  deriving Repr, DecidableEq

/-- White space that has been passed inside a scalar. -/
structure Gap where
  /-- The blanks on the line, as long as no line break has been passed. -/
  blanks : Text := []
  breaks : Nat := 0
  joined : Bool := false
  deriving Repr, DecidableEq

namespace Gap

def isEmpty (gap : Gap) : Bool := gap.blanks.isEmpty && gap.breaks = 0 && !gap.joined

/-- Passes a space, tab or line break. -/
def pass (gap : Gap) (c : Char) : Gap :=
  if c = '\n' then { gap with blanks := [], breaks := gap.breaks + 1 }
  else if gap.breaks = 0 && !gap.joined then { gap with blanks := gap.blanks ++ [c] }
  else gap

/-- What white space amounts to. -/
def text (gap : Gap) : Text :=
  if gap.joined then List.replicate gap.breaks '\n'
  else if gap.breaks = 0 then gap.blanks
  else if gap.breaks = 1 then [' ']
  else List.replicate (gap.breaks - 1) '\n'

end Gap

/-! ### Plain scalars -/

def isFlowIndicator (c : Char) : Bool := c = ',' || c = '[' || c = ']' || c = '\x7b' || c = '\x7d'

def startsPlain (flow : Bool) : List Cell → Bool
  | [] => false
  | cell :: cells =>
    if cell.char = '-' then !wordEnds cells
    else if cell.char = '?' || cell.char = ':' then !flow && !wordEnds cells
    else !isSpace cell.char && cell.char ≠ '\n' && !isFlowIndicator cell.char &&
      !("#&*!|>'\"%@\x60".toList).contains cell.char

/-- The rest of a plain scalar and the cells from where it ends. It ends before a comment, a marker, a colon at
    the end of a word, inside brackets at any character that has a meaning there, and else at a line that is
    not indented as far as `inner`. A tab may not stand where a line is indented. -/
def plainFrom (flow : Bool) (inner : Nat) : Gap → List Cell → Option (Text × List Cell)
  | _, [] => some ([], [])
  | gap, cell :: cells =>
    if cell.char = '\t' && 0 < gap.breaks && cell.column < inner then none
    else if isSpace cell.char || cell.char = '\n' then plainFrom flow inner (gap.pass cell.char) cells
    else if !gap.isEmpty &&
        (cell.char = '#' || isAnyMarker (cell :: cells) || (!flow && 0 < gap.breaks && cell.column < inner)) then
      some ([], cell :: cells)
    else if cell.char = ':' && wordEnds cells then some ([], cell :: cells)
    else if flow && cell.char = ':' && (cells.head?.any fun next => isFlowIndicator next.char || next.char = '?') then
      none
    else if flow && isFlowIndicator cell.char then some ([], cell :: cells)
    else (plainFrom flow inner {} cells).map fun (text, rest) => (gap.text ++ cell.char :: text, rest)

/-! ### Scalars in quotes -/

/-- The rest of a scalar in quotes and the cells behind it. Escapes are kept as they are, but for an escaped
    line break. In single quotes, `pending` tells that the last cell was a quote; in double quotes, that it was
    a backslash. -/
def quotedFrom (quote : Char) : Gap → (pending : Bool) → List Cell → Option (Text × List Cell)
  | _, pending, [] => if pending && quote = '\'' then some ([], []) else none
  | gap, pending, cell :: cells =>
    if pending then
      if quote = '\'' then
        if cell.char = '\'' then (quotedFrom quote {} false cells).map fun (text, rest) => ('\'' :: text, rest)
        else some ([], cell :: cells)
      else if cell.char = '\n' then quotedFrom quote { joined := true } false cells
      else (quotedFrom quote {} false cells).map fun (text, rest) => ('\\' :: cell.char :: text, rest)
    else if isAnyMarker (cell :: cells) then none
    else if isSpace cell.char || cell.char = '\n' then quotedFrom quote (gap.pass cell.char) false cells
    else if cell.char = quote then
      if quote = '\'' then (quotedFrom quote {} true cells).map fun (text, rest) => (gap.text ++ text, rest)
      else some (gap.text, cells)
    else if quote = '"' && cell.char = '\\' then
      (quotedFrom quote {} true cells).map fun (text, rest) => (gap.text ++ text, rest)
    else (quotedFrom quote {} false cells).map fun (text, rest) => (gap.text ++ cell.char :: text, rest)

def escapes : Text.Escapes where
  char? c :=
    (("0\x00a\x07b\x08t\tn\nv\x0bf\x0cr\re\x1b\"\"//\\\\N\u0085_\u00a0L\u2028P\u2029".toList ++ ['\t', '\t', ' ', ' '])
      |> pairs).lookup c
  digits? c := if c = 'x' then some 2 else if c = 'u' then some 4 else if c = 'U' then some 8 else none
where
  pairs : Text → List (Char × Char)
    | a :: b :: text => (a, b) :: pairs text
    | _ => []

/-- A scalar that is plain or in quotes, and the cells behind it. -/
def scalar? (flow : Bool) (inner : Nat) (cells : List Cell) : Option (Scalar × List Cell) :=
  match cells with
  | [] => none
  | cell :: rest =>
    if cell.char = '\'' then (quotedFrom '\'' {} false rest).map fun (text, rest) => ({ text, style := .quoted }, rest)
    else if cell.char = '"' then
      match quotedFrom '"' {} false rest with
      | none => none
      | some (text, rest) =>
        (Text.unescape escapes text).map fun text => ({ text, style := .quoted }, rest)
    else if startsPlain flow cells then
      (plainFrom flow inner {} cells).map fun (text, rest) => ({ text, style := .plain }, rest)
    else none

end PatternLint.Yaml
