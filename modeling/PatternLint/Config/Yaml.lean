import PatternLint.Config.Settings
import PatternLint.Config.Yaml.Document

/-!
# Settings in YAML

The settings that a document of YAML 1.1 gives. An empty value, or a plain scalar that says so, leaves a setting
absent; where a text is wanted any scalar is one, and a truth value is one of two words in three spellings.
-/
namespace PatternLint.Yaml

def isNullWord (text : Text) : Bool :=
  text = "~".toList || text = "null".toList || text = "Null".toList || text = "NULL".toList

def truth? (text : Text) : Option Bool :=
  if text = "true".toList || text = "True".toList || text = "TRUE".toList then some true
  else if text = "false".toList || text = "False".toList || text = "FALSE".toList then some false
  else none

/-- What a scalar says about a setting: nothing, or something that is still to be read. A tag can deny a plain
    scalar that it is absent, or insist on it; then the scalar must say so. -/
def Scalar.present? (scalar : Scalar) : Option Bool :=
  match scalar.style, scalar.tag with
  | .plain, none => some !(scalar.text.isEmpty || isNullWord scalar.text)
  | .plain, some tag =>
    if tag ≠ nullTag then some true else if isNullWord scalar.text then some false else none
  | _, _ => some true

/-- The truth value that a scalar is. A scalar that is not plain must be a literal block with the tag for it. -/
def Scalar.truth? (scalar : Scalar) : Option Bool :=
  if scalar.style = .plain || (scalar.style = .literal && scalar.tag = some truthTag) then Yaml.truth? scalar.text
  else none

def values : Settings.Values Node where
  text value := match value with
    | .scalar scalar => scalar.present?.map fun present => if present then some scalar.text else none
    | .sequence _ => none
  texts value := match value with
    | .scalar scalar =>
      match scalar.present? with
      | some false => some none
      | some true => if scalar.style = .plain && scalar.text.isEmpty then some (some []) else none
      | none => none
    | .sequence items => some (some items)
  flag value := match value with
    | .scalar scalar =>
      match scalar.present? with
      | some false => some none
      | some true => scalar.truth?.map some
      | none => none
    | .sequence _ => none

def settings? (text : Text) : Option Settings := (members? text).bind (Settings.ofMembers? values)

end PatternLint.Yaml
