import PatternLint.Text.Basic

/-!
# Cells

A YAML document is read as cells, characters with their line and column, since what belongs together is told by
indentation. Tabs cannot indent: they are blanks only on a line that has begun, and inside brackets.
-/
namespace PatternLint.Yaml

/-- A character at a place of the document. -/
structure Cell where
  char : Char
  line : Nat
  column : Nat
  /-- Whether only blanks stand before it on its line. -/
  leads : Bool
  deriving Repr, DecidableEq

/-- The characters that a document may hold. -/
def isPrintable (c : Char) : Bool :=
  c = '\t' || c = '\n' || c = '\r' || (0x20 ≤ c.toNat && c.toNat ≤ 0x7e) || c = '\x85' ||
    (0xa0 ≤ c.toNat && c.toNat ≤ 0xfffd && c ≠ '\ufeff') || 0x10000 ≤ c.toNat

def alikeBreaks : Text → Text
  | '\r' :: '\n' :: text => '\n' :: alikeBreaks text
  | c :: text =>
    (if c = '\r' || c = '\x85' || c = '\u2028' || c = '\u2029' then '\n' else c) :: alikeBreaks text
  | [] => []

/-- Whether a character is a space or tab. -/
def isSpace (c : Char) : Bool := c = ' ' || c = '\t'

def cellsFrom (line column : Nat) (leads : Bool) : Text → List Cell
  | [] => []
  | c :: text =>
    ⟨c, line, column, leads⟩ ::
      (if c = '\n' then cellsFrom (line + 1) 0 true text else cellsFrom line (column + 1) (leads && isSpace c) text)

def cellsOf (text : Text) : List Cell := cellsFrom 0 0 true (alikeBreaks text)

def wordEnds : List Cell → Bool
  | [] => true
  | cell :: _ => isSpace cell.char || cell.char = '\n'

/-- Whether a line of three equal characters starts here. -/
def isMarker (c : Char) : List Cell → Bool
  | a :: b :: d :: cells => a.column = 0 && a.char = c && b.char = c && d.char = c && wordEnds cells
  | _ => false

/-- Whether the start or the end of a document is marked here. -/
def isAnyMarker (cells : List Cell) : Bool := isMarker '-' cells || isMarker '.' cells

/-- The cells from the next word on, with blanks, comments and line breaks skipped. A tab is skipped inside brackets
    (`flow`), and else behind what stands on its line, unless a collection may begin there (`tabs` is false). -/
def nextWord (flow tabs : Bool) : (comment : Bool) → List Cell → List Cell
  | _, [] => []
  | comment, cell :: cells =>
    if cell.char = '\n' then nextWord flow tabs false cells
    else if comment then nextWord flow tabs true cells
    else if cell.char = ' ' || (cell.char = '\t' && (flow || (tabs && !cell.leads))) then nextWord flow tabs false cells
    else if cell.char = '#' then nextWord flow tabs true cells
    else cell :: cells

/-- The cells from the next one on that is no blank. -/
def skipBlanks (cells : List Cell) : List Cell := cells.dropWhile fun cell => isSpace cell.char

/-- Whether nothing but blanks and a comment is left of the line. -/
def lineEnds (cells : List Cell) : Bool :=
  match skipBlanks cells with
  | [] => true
  | cell :: _ => cell.char = '\n' || cell.char = '#'

end PatternLint.Yaml
