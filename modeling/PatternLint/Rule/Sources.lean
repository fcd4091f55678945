import PatternLint.Finding
import PatternLint.Line

/-!
# Rules about sources

What is wrong with a source as a whole: a quote that is never closed, brackets that do not balance, and different
scales.
-/
namespace PatternLint

/-! ### Unclosed quotes

One scan over the whole source keeps, for each kind of quote, the place where it is open. A quote opens and
closes only while no quote of another kind is open; a backslash hides the next character of its line.
-/

namespace Quotes

/-- A place in a source. -/
structure Place where
  /-- The line, from one. -/
  line : Nat
  /-- The column, from one. -/
  column : Nat
  deriving Repr, DecidableEq

/-- Where each kind of quote is open. -/
structure OpenQuotes where
  double : Option Place := none
  single : Option Place := none
  backtick : Option Place := none
  deriving Repr, DecidableEq

namespace OpenQuotes

def get (quotes : OpenQuotes) : Quote → Option Place
  | .double => quotes.double
  | .single => quotes.single
  | .backtick => quotes.backtick

/-- Opens a kind of quote at a place, or closes it. -/
def set (quotes : OpenQuotes) (place : Option Place) : Quote → OpenQuotes
  | .double => { quotes with double := place }
  | .single => { quotes with single := place }
  | .backtick => { quotes with backtick := place }

def otherOpen (quotes : OpenQuotes) (quote : Quote) : Bool :=
  Quote.all.any fun other => other ≠ quote && (quotes.get other).isSome

/-- A quote is met: it closes if it is open and opens if not, and is plain text inside another kind. -/
def toggle (quotes : OpenQuotes) (quote : Quote) (place : Place) : OpenQuotes :=
  if quotes.otherOpen quote then quotes
  else quotes.set (if (quotes.get quote).isSome then none else some place) quote

end OpenQuotes

/-- Scans the rest of a line from a column on, where `hidden` tells whether a backslash stands before it. -/
def scanLine (line : Nat) : Nat → Bool → OpenQuotes → Text → OpenQuotes
  | _, _, quotes, [] => quotes
  | column, true, quotes, _ :: text => scanLine line (column + 1) false quotes text
  | column, false, quotes, c :: text =>
    if c = '\\' then scanLine line (column + 1) true quotes text
    else
      match Quote.ofChar? c with
      | some quote => scanLine line (column + 1) false (quotes.toggle quote ⟨line, column⟩) text
      | none => scanLine line (column + 1) false quotes text

def openAtEnd (source : Text) : OpenQuotes :=
  (Line.ofSource source).foldl (fun quotes line => scanLine line.number 1 false quotes line.text) {}

/-- The quotes of a source that are never closed. -/
def findings (source : Text) : List Finding :=
  Quote.all.filterMap fun quote =>
    ((openAtEnd source).get quote).map fun place => ⟨place.line, place.column, .unclosedQuote quote⟩

end Quotes

/-! ### Unbalanced brackets

Brackets are counted over the source without its comments. Quotes do not matter, so a comment mark inside a
literal starts a comment as well.
-/

namespace Brackets

/-- A line up to its first comment mark. -/
def beforeComment : Text → Text
  | [] => []
  | [c] => [c]
  | c :: d :: text => if c = '/' ∧ d = '/' then [] else c :: beforeComment (d :: text)

/-- How many more brackets of each kind have been opened than closed. -/
structure Depths where
  round : Int := 0
  square : Int := 0
  curly : Int := 0
  deriving Repr, DecidableEq

namespace Depths

/-- How many more brackets of a kind have been opened than closed. -/
def get (depths : Depths) : Bracket → Int
  | .round => depths.round
  | .square => depths.square
  | .curly => depths.curly

/-- What one character does to the number of open brackets of a kind. -/
def change (bracket : Bracket) (c : Char) : Int :=
  if c = bracket.opener then 1 else if c = bracket.closer then -1 else 0

/-- The depths behind a character. -/
def step (depths : Depths) (c : Char) : Depths :=
  ⟨depths.round + change .round c, depths.square + change .square c, depths.curly + change .curly c⟩

end Depths

def depthsAtEnd (source : Text) : Depths :=
  source.lines.foldl (fun depths line => (beforeComment line).foldl Depths.step depths) {}

/-- The kinds of brackets that do not balance, reported for the source as a whole. -/
def findings (source : Text) : List Finding :=
  Bracket.all.filterMap fun bracket =>
    let depth := (depthsAtEnd source).get bracket
    if depth = 0 then none
    else some ⟨1, 1, .unbalanced bracket (if 0 < depth then .missing else .extra) depth.natAbs⟩

end Brackets

/-! ### Different scales

The arguments of all `.scale("…")` calls of a source, which may span lines. Two different ones earn a single
warning that lists them all.
-/

namespace Scales

/-- A call of `.scale` on a quoted argument, capturing the argument. -/
def scaleCall : Pattern Text where
  read := Reader.call ".scale".toList Reader.quoted
  advances := Reader.call_advances Reader.quoted_suffix

/-- The scales of a source, each once, in the order of their first use. -/
def distinct (source : Text) : List Text := (scaleCall.all source).eraseDups

def findings (source : Text) : List Finding :=
  match distinct source with
  | first :: second :: more => [⟨1, 1, .differentScales (first :: second :: more)⟩]
  | _ => []

end Scales

end PatternLint
