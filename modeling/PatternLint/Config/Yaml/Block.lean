import PatternLint.Config.Yaml.Scalar

/-!
# Block scalars

Scalars that are whole lines, each indented by the same number of blanks. A literal block keeps its lines; in a
folded one, two lines next to each other are joined by a blank unless one of them is indented further.
-/
namespace PatternLint.Yaml

/-- What has been read of a block. -/
structure BlockLines where
  /-- The number of empty lines before each line, and its text without indentation. -/
  lines : List (Nat × Text)
  last : Nat
  complete : Bool
  /-- The cells behind the block. -/
  rest : List Cell

/-- The lines of a block that is indented as far as `indent`. A tab may not stand in the indentation. `steps`
    bounds the number of lines. -/
def blockLines? (indent : Nat) : (steps empty : Nat) → (complete : Bool) → List Cell → Option BlockLines
  | 0, _, _, _ => none
  | steps + 1, empty, complete, cells =>
    let line := cells.takeWhile (·.char ≠ '\n')
    let after := cells.dropWhile (·.char ≠ '\n')
    let spaces := (line.takeWhile (·.char = ' ')).length
    if spaces = line.length && spaces ≤ indent then
      match after with
      | [] => some ⟨[], empty, complete, []⟩
      | _ :: next => blockLines? indent steps (empty + 1) complete next
    else if spaces < indent then
      if (line.drop spaces).head?.any (·.char = '\t') then none else some ⟨[], empty, complete, cells⟩
    else
      (blockLines? indent steps 0 (!after.isEmpty) after.tail).map fun block =>
        { block with lines := (empty, (line.drop indent).map (·.char)) :: block.lines }

/-- The indentation of a block: the column of its first text, or a further one that only blanks in front of it
    reach, but at least `inner`. A tab may not stand there. `steps` bounds the number of lines. -/
def blockIndent? : (steps inner : Nat) → List Cell → Option Nat
  | 0, _, _ => none
  | steps + 1, inner, cells =>
    let reached := max inner (cells.takeWhile (·.char = ' ')).length
    match cells.dropWhile (·.char = ' ') with
    | [] => some reached
    | cell :: cells =>
      if cell.char = '\n' then blockIndent? steps reached cells
      else if cell.char = '\t' then none
      else some reached

def literal (lines : List (Nat × Text)) : Text :=
  Text.unlines (lines.map fun (empty, line) => List.replicate empty '\n' ++ line)

def folded : List (Nat × Text) → Text
  | [] => []
  | (empty, line) :: lines => List.replicate empty '\n' ++ line ++ foldedAfter line lines
where
  /-- The text of the lines behind a line. -/
  foldedAfter (before : Text) : List (Nat × Text) → Text
    | [] => []
    | (empty, line) :: lines =>
      let further := before.head?.any isSpace || line.head?.any isSpace
      (if further then List.replicate (empty + 1) '\n' else if empty = 0 then [' '] else List.replicate empty '\n') ++
        line ++ foldedAfter line lines

/-- The line breaks at the end of a block, by the sign in its header. -/
def blockEnding (sign : Option Char) (block : BlockLines) : Text :=
  match sign with
  | some '-' => []
  | some _ => List.replicate (block.last + if block.complete then 1 else 0) '\n'
  | none => if block.complete then ['\n'] else []

/-- A block scalar behind its bar or angle, and the cells behind it. The header may give a sign, for what becomes
    of the line breaks at the end, and a digit, for how far the block is indented. -/
def blockScalar? (isFolded : Bool) (inner : Nat) (cells : List Cell) : Option (Scalar × List Cell) :=
  let isSign (c : Char) : Bool := c = '+' || c = '-'
  let header := (cells.takeWhile fun cell => isSign cell.char || cell.char.isDigit).map (·.char)
  let signs := header.filter isSign
  let digits := header.filter (!isSign ·)
  if 1 < signs.length || 1 < digits.length || digits = ['0'] || !lineEnds (cells.drop header.length) then none
  else
    let body := (cells.dropWhile (·.char ≠ '\n')).tail
    let indent? := match digits.head? with
      | some digit => some (inner - 1 + (digit.toNat - '0'.toNat))
      | none => blockIndent? (body.length + 1) (max inner 1) body
    match indent? with
    | none => none
    | some indent =>
      (blockLines? indent (body.length + 1) 0 false body).map fun block =>
        ({ text := (if isFolded then folded block.lines else literal block.lines) ++ blockEnding signs.head? block
           style := if isFolded then .quoted else .literal }, block.rest)

end PatternLint.Yaml
