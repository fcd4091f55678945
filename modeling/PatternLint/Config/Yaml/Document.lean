import PatternLint.Config.Yaml.Node

/-!
# Documents

A document is one mapping of names to values, in block style or in braces. A document without any word is an
empty mapping, and so is one that has no more than the marks of its start and end, and a name or a tag.
-/
namespace PatternLint.Yaml

/-- The members of a mapping: names and values in their order. -/
abbrev Members := List (Text × Node)

/-- The longest distance from the start of a name to its colon, if the name is not marked by a question mark. -/
def longestName : Nat := 1024

/-- Whether a name that is not marked by a question mark can start and be followed by a colon at these cells. -/
def isNameAt (start colon : Cell) : Bool :=
  colon.char = ':' && colon.line = start.line && colon.column ≤ start.column + longestName

/-! ### Block style -/

/-- A name in front of a colon, from its first word on, and what is left behind the colon. -/
def blockName? (inner : Nat) (rest : Rest) : Option (Text × Rest) :=
  match (properties? false skipBlanks rest).bind fun (properties, rest) => namedScalar? false inner properties rest with
  | none => none
  | some (name, after) =>
    match skipBlanks after.cells with
    | [] => none
    | colon :: cells =>
      if rest.cells.head?.any (isNameAt · colon) && wordEnds cells then some (name.text, { after with cells := cells })
      else none

/-- The value behind a colon. `isOpen` tells that a list may begin on the same line. -/
def blockValue? (column line : Nat) (isOpen : Bool) (rest : Rest) : Option (Node × Rest) :=
  Place.value? ⟨column + 1, line, isOpen⟩ rest

/-- A member whose name is marked, from behind the question mark on. Without a colon the value is empty. -/
def markedMember? (column line : Nat) (rest : Rest) : Option ((Text × Node) × Rest) :=
  match Place.value? ⟨column + 1, line, true⟩ rest with
  | some (.scalar name, rest) =>
    match nextWord false true false rest.cells with
    | colon :: cells =>
      if colon.char = ':' && colon.column = column && wordEnds cells then
        (blockValue? column colon.line true { rest with cells := cells }).map fun (value, rest) =>
          ((name.text, value), rest)
      else some ((name.text, .scalar { text := [], style := .plain }), { rest with cells := colon :: cells })
    | [] => some ((name.text, .scalar { text := [], style := .plain }), { rest with cells := [] })
  | _ => none

/-- A member, from its first word on. -/
def blockMember? (column : Nat) (rest : Rest) : Option ((Text × Node) × Rest) :=
  match rest.cells with
  | [] => none
  | start :: cells =>
    if start.char = '?' && wordEnds cells then markedMember? column start.line { rest with cells := cells }
    else
      match blockName? (column + 1) rest with
      | none => none
      | some (name, rest) =>
        (blockValue? column start.line false rest).map fun (value, rest) => ((name, value), rest)

/-- The members of a mapping at a column, up to a marker or the end; `steps` bounds their number. -/
def blockMembers? (column : Nat) : (steps : Nat) → Rest → Option (Members × List Cell)
  | 0, _ => none
  | steps + 1, rest =>
    match nextWord false true false rest.cells with
    | [] => some ([], [])
    | start :: cells =>
      if isAnyMarker (start :: cells) then some ([], start :: cells)
      else if start.column ≠ column then none
      else
        match blockMember? column { rest with cells := start :: cells } with
        | none => none
        | some (member, rest) =>
          (blockMembers? column steps rest).map fun (members, after) => (member :: members, after)

/-! ### Braces -/

/-- The value behind a colon inside braces. -/
def flowValue? (inner : Nat) (rest : Rest) : Option (Node × Rest) :=
  let rest := { rest with cells := nextInBrackets rest.cells }
  if rest.cells.head?.any fun cell => cell.char = ',' || cell.char = '\x7d' then
    some (.scalar { text := [], style := .plain }, rest)
  else flowNode? inner rest

/-- A member, from its first word on. Without a colon the value is empty. -/
def flowMember? (rest : Rest) : Option ((Text × Node) × Rest) :=
  match rest.cells with
  | [] => none
  | start :: cells =>
    let marked := start.char = '?'
    match flowScalar? 0 (if marked then { rest with cells := nextInBrackets cells } else rest) with
    | none => none
    | some (name, rest) =>
      match nextInBrackets rest.cells with
      | [] => none
      | colon :: cells =>
        if colon.char ≠ ':' then
          some ((name.text, .scalar { text := [], style := .plain }), { rest with cells := colon :: cells })
        else if marked || isNameAt start colon then
          (flowValue? 0 { rest with cells := cells }).map fun (value, rest) => ((name.text, value), rest)
        else none

/-- The members of a mapping in braces, behind the opening brace or a comma; `steps` bounds their number. -/
def flowMembers? : (steps : Nat) → Rest → Option (Members × List Cell)
  | 0, _ => none
  | steps + 1, rest =>
    match nextInBrackets rest.cells with
    | [] => none
    | start :: cells =>
      if start.char = '\x7d' then some ([], cells)
      else
        match flowMember? { rest with cells := start :: cells } with
        | none => none
        | some (member, rest) =>
          match nextInBrackets rest.cells with
          | [] => none
          | cell :: cells =>
            if cell.char = ',' then
              (flowMembers? steps { rest with cells := cells }).map fun (members, after) => (member :: members, after)
            else if cell.char = '\x7d' then some ([member], cells)
            else none

/-! ### Documents -/

/-- Whether nothing follows a document but marks of its end; `steps` bounds their number. -/
def onlyEnds : (steps : Nat) → List Cell → Bool
  | 0, _ => false
  | steps + 1, cells =>
    match nextWord false true false cells with
    | [] => true
    | cells => isMarker '.' cells && lineEnds (cells.drop 3) && onlyEnds steps (cells.drop 3)

/-- The members of the mapping of a document, from its first word on, and the cells behind it. -/
def mapping? (rest : Rest) : Option (Members × List Cell) :=
  match rest.cells with
  | [] => some ([], [])
  | cell :: cells =>
    if isAnyMarker (cell :: cells) then some ([], cell :: cells)
    else if cell.char = '\x7b' then flowMembers? (cells.length + 1) { rest with cells := cells }
    else blockMembers? cell.column (cells.length + 1) rest

/-- The members of the mapping of a document and the cells behind it. In front of the mapping may stand a name and
    a tag (`properties`); on the line of a member in block style they belong to the name of that member. `line` is
    that of the mark of the start, on which no mapping in block style may begin. `steps` bounds the number of
    lines with a name or tag. -/
def root? : (steps : Nat) → (line : Option Nat) → Properties → Rest → Option (Members × List Cell)
  | 0, _, _, _ => none
  | steps + 1, line, properties, rest =>
    let cells := nextWord false line.isSome false rest.cells
    let rest := { rest with cells := cells }
    match cells with
    | [] => some ([], [])
    | start :: _ =>
      let isBlock (cells : List Cell) : Bool :=
        cells.head?.any fun cell => cell.line = start.line && cell.char ≠ '\x7b'
      match properties? false skipBlanks rest with
      | none => none
      | some (found, after) =>
        if found.isEmpty then if line = some start.line && isBlock cells then none else mapping? rest
        else if !lineEnds after.cells && isBlock after.cells then
          if line = some start.line then none else mapping? rest
        else if (properties.name.isSome && found.name.isSome) || (properties.tag.isSome && found.tag.isSome) then none
        else if lineEnds after.cells then
          root? steps (some start.line)
            ⟨properties.name <|> found.name, properties.tag <|> found.tag⟩ after
        else mapping? after

/-- The members of the only document of a text. -/
def members? (text : Text) : Option Members :=
  let text := if text.head? = some '\ufeff' then text.tail else text
  if !text.all isPrintable then none
  else
    let cells := cellsOf text
    match directives? (cells.length + 1) {} cells with
    | none => none
    | some (directives, first) =>
      let handles := directives.handles ++ Handles.standard
      let mapping :=
        if isMarker '-' first then
          root? 3 (first.head?.map (·.line)) {} { cells := first.drop 3, handles }
        else if directives.version || !directives.handles.isEmpty || isMarker '.' first then none
        else root? 3 none {} { cells := first, handles }
      match mapping with
      | some (members, after) => if onlyEnds (after.length + 1) after then some members else none
      | none => none

end PatternLint.Yaml
