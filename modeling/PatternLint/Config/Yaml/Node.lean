import PatternLint.Config.Yaml.Block
import PatternLint.Config.Yaml.Tag

/-!
# Nodes

The values that a mapping can give to its names: scalars and lists of scalars, in brackets or with dashes. In
front of a value may stand its tag and a name, by which a scalar can be given again later. Deeper nesting is
refused.
-/
namespace PatternLint.Yaml

/-- A value of the mapping. -/
inductive Node where
  | scalar (scalar : Scalar)
  | sequence (items : List Text)
  deriving Repr, DecidableEq

/-- What is left of a document, and what has been defined in it. -/
structure Rest where
  cells : List Cell
  /-- The named values, the last one first. A list has a name too, but cannot be given again. -/
  named : List (Text × Option Scalar) := []
  handles : Handles := Handles.standard

/-- Gives a value a name, if there is one. -/
def Rest.define (rest : Rest) (name : Option Text) (scalar : Option Scalar) : Rest :=
  match name with
  | none => rest
  | some name => { rest with named := (name, scalar) :: rest.named }

/-! ### What stands in front of a value -/

/-- What stands in front of a value. -/
structure Properties where
  name : Option Text := none
  tag : Option Text := none

namespace Properties

def isEmpty (properties : Properties) : Bool := properties.name.isNone && properties.tag.isNone

def emptyScalar (properties : Properties) : Scalar := { text := [], style := .plain, tag := properties.tag }

/-- The tag of a scalar that is written out. A single exclamation mark is none. -/
def scalarTag (properties : Properties) : Option Text := properties.tag.filter (· ≠ ['!'])

end Properties

/-- A name behind its mark, and the cells behind it. -/
def name? (cells : List Cell) : Option (Text × List Cell) :=
  let name := (cells.takeWhile fun cell => isNameChar cell.char).map (·.char)
  let rest := cells.drop name.length
  if name.isEmpty || !(wordEnds rest || rest.head?.any fun cell => ("?:,]\x7d%@\x60".toList).contains cell.char) then
    none
  else some (name, rest)

/-- Whether a name or a tag starts here. -/
def startsProperty (cells : List Cell) : Bool := cells.head?.any fun cell => cell.char = '&' || cell.char = '!'

/-- Reads a name or a tag. Neither may be given twice. -/
def property? (flow : Bool) (properties : Properties) (rest : Rest) : Option (Properties × Rest) :=
  match rest.cells with
  | [] => none
  | cell :: cells =>
    if cell.char = '&' then
      if properties.name.isSome then none
      else (name? cells).map fun (name, cells) => ({ properties with name := some name }, { rest with cells := cells })
    else if properties.tag.isSome then none
    else
      (tag? flow rest.handles cells).map fun (tag, cells) =>
        ({ properties with tag := some tag }, { rest with cells := cells })

/-- Reads a name and a tag in any order, where `next` leads to the next word. -/
def properties? (flow : Bool) (next : List Cell → List Cell) (rest : Rest) : Option (Properties × Rest) :=
  (one {} rest).bind fun (properties, rest) => one properties rest
where
  /-- Reads a name or a tag, if there is one. -/
  one (properties : Properties) (rest : Rest) : Option (Properties × Rest) :=
    if startsProperty rest.cells then
      (property? flow properties rest).map fun (properties, rest) =>
        (properties, { rest with cells := next rest.cells })
    else some (properties, rest)

/-- A scalar behind its properties, or the mark for one that has a name. -/
def namedScalar? (flow : Bool) (inner : Nat) (properties : Properties) (rest : Rest) : Option (Scalar × Rest) :=
  if isAnyMarker rest.cells then none
  else if rest.cells.head?.any (·.char = '*') then
    if !properties.isEmpty then none
    else
      match name? rest.cells.tail with
      | none => none
      | some (name, cells) =>
        match rest.named.lookup name with
        | some (some scalar) => some (scalar, { rest with cells := cells })
        | _ => none
  else
    (scalar? flow inner rest.cells).map fun (scalar, cells) =>
      let scalar := { scalar with tag := properties.scalarTag }
      (scalar, { rest with cells := cells }.define properties.name scalar)

/-! ### Inside brackets -/

def nextInBrackets (cells : List Cell) : List Cell := nextWord true true false cells

/-- A scalar inside brackets, from its first word on. With something in front of it, it may be empty. -/
def flowScalar? (inner : Nat) (rest : Rest) : Option (Scalar × Rest) :=
  match properties? true nextInBrackets rest with
  | none => none
  | some (properties, rest) =>
    if !properties.isEmpty && (rest.cells.head?.any fun cell => isFlowIndicator cell.char) then
      some (properties.emptyScalar, rest.define properties.name properties.emptyScalar)
    else namedScalar? true inner properties rest

/-- The items of a list in brackets, behind the opening bracket or a comma; `steps` bounds their number. -/
def flowItems? (inner : Nat) : (steps : Nat) → Rest → Option (List Text × Rest)
  | 0, _ => none
  | steps + 1, rest =>
    match nextInBrackets rest.cells with
    | [] => none
    | cell :: cells =>
      if cell.char = ']' then some ([], { rest with cells := cells })
      else
        match flowScalar? inner { rest with cells := cell :: cells } with
        | none => none
        | some (item, rest) =>
          match nextInBrackets rest.cells with
          | [] => none
          | cell :: cells =>
            if cell.char = ',' then
              (flowItems? inner steps { rest with cells := cells }).map fun (items, rest) => (item.text :: items, rest)
            else if cell.char = ']' then some ([item.text], { rest with cells := cells })
            else none

/-- A list in brackets behind its properties, from behind the opening bracket on. -/
def flowList? (inner : Nat) (properties : Properties) (rest : Rest) : Option (Node × Rest) :=
  (flowItems? inner (rest.cells.length + 1) (rest.define properties.name none)).map fun (items, rest) =>
    (.sequence items, rest.define properties.name none)

/-- A value inside brackets, from its first word on. -/
def flowNode? (inner : Nat) (rest : Rest) : Option (Node × Rest) :=
  match properties? true nextInBrackets rest with
  | none => none
  | some (properties, after) =>
    if after.cells.head?.any (·.char = '[') then flowList? inner properties { after with cells := after.cells.tail }
    else (flowScalar? inner rest).map fun (scalar, rest) => (.scalar scalar, rest)

/-! ### In block style -/

/-- A place for a value. -/
structure Place where
  /-- The least column of what belongs to the place on a further line. -/
  inner : Nat
  line : Nat
  /-- Whether a list may begin on that line. -/
  isOpen : Bool

namespace Place

def next (place : Place) (cells : List Cell) : List Cell := nextWord false (!place.isOpen) false cells

def holds (place : Place) (cells : List Cell) : Bool :=
  !isAnyMarker cells && cells.head?.any fun cell => cell.line = place.line || place.inner ≤ cell.column

/-- Reads a name or a tag in front of the value, if there is one. What follows on its line belongs to the value. -/
def property? (place : Place) (properties : Properties) (rest : Rest) : Option (Properties × Place × Rest) :=
  let cells := place.next rest.cells
  let rest := { rest with cells := cells }
  if startsProperty cells && place.holds cells then
    (Yaml.property? false properties rest).map fun (properties, rest) =>
      (properties, { place with line := (cells.head?.map (·.line)).getD place.line, isOpen := false }, rest)
  else some (properties, place, rest)

def properties? (place : Place) (rest : Rest) : Option (Properties × Place × Rest) :=
  (place.property? {} rest).bind fun (properties, place, rest) => place.property? properties rest

/-- A value behind its properties that is no list with dashes. Nothing may follow it on its line. -/
def content? (place : Place) (properties : Properties) (rest : Rest) : Option (Node × Rest) :=
  let cells := place.next rest.cells
  if !place.holds cells then
    some (.scalar properties.emptyScalar,
      { rest with cells := cells }.define properties.name properties.emptyScalar)
  else
    match cells with
    | [] => none
    | cell :: after =>
      if cell.char = '[' then
        (flowList? place.inner properties { rest with cells := after }).filter fun (_, rest) => lineEnds rest.cells
      else if cell.char = '|' || cell.char = '>' then
        (blockScalar? (cell.char = '>') place.inner after).map fun (scalar, after) =>
          let scalar := { scalar with tag := properties.scalarTag }
          (.scalar scalar, { rest with cells := after }.define properties.name scalar)
      else
        match namedScalar? false place.inner properties { rest with cells := cells } with
        | none => none
        | some (scalar, rest) =>
          let isName := rest.cells.head?.any fun next => next.char = ':' && place.inner ≤ next.column
          if (if startsPlain false cells then !isName else lineEnds rest.cells) then some (.scalar scalar, rest)
          else none

end Place

/-- Whether an item of a list in block style starts here. -/
def isDash (cells : List Cell) : Bool := cells.head?.any (·.char = '-') && wordEnds cells.tail

/-- The items of a list in block style, from the dash of the first on; `steps` bounds their number. -/
def blockItems? (column : Nat) : (steps : Nat) → Rest → Option (List Text × Rest)
  | 0, _ => none
  | steps + 1, rest =>
    match rest.cells with
    | [] => none
    | dash :: cells =>
      match Place.properties? ⟨column + 1, dash.line, true⟩ { rest with cells := cells } with
      | none => none
      | some (properties, place, rest) =>
        match place.content? properties rest with
        | some (.scalar item, rest) =>
          let cells := nextWord false true false rest.cells
          let rest := { rest with cells := cells }
          if isDash cells && cells.head?.any (·.column = column) then
            (blockItems? column steps rest).map fun (items, rest) => (item.text :: items, rest)
          else some ([item.text], rest)
        | _ => none

/-- The value of a place. A list with dashes may be indented less by one column than any other value. -/
def Place.value? (place : Place) (rest : Rest) : Option (Node × Rest) :=
  match place.properties? rest with
  | none => none
  | some (properties, place, rest) =>
    match place.next rest.cells with
    | [] => place.content? properties rest
    | cell :: cells =>
      let begins := if cell.line = place.line then place.isOpen else place.inner ≤ cell.column + 1
      if begins && isDash (cell :: cells) then
        let rest := { rest with cells := cell :: cells }.define properties.name none
        (blockItems? cell.column (cells.length + 1) rest).map fun (items, rest) =>
          (.sequence items, rest.define properties.name none)
      else place.content? properties rest

end PatternLint.Yaml
