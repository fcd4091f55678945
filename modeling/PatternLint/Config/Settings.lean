import PatternLint.Text.Basic

/-!
# Settings

What a configuration file may set. Each setting may be absent; a file that sets anything else, sets something
twice or to a value of the wrong kind is refused as a whole.
-/
namespace PatternLint

/-- The settings of a configuration file. -/
structure Settings where
  output : Option Text := none
  patterns : Option (List Text) := none
  denyWarnings : Option Bool := none
  deriving Repr, DecidableEq

namespace Settings

/-- How a format gives the values of settings: `none` refuses the value, `some none` leaves the setting absent. -/
structure Values (α : Type) where
  text : α → Option (Option Text)
  texts : α → Option (Option (List Text))
  /-- A value as yes or no. -/
  flag : α → Option (Option Bool)

variable {α : Type}

def set? (values : Values α) (settings : Settings) (name : Text) (value : α) : Option Settings :=
  if name = "output".toList then (values.text value).map fun output => { settings with output := output }
  else if name = "patterns".toList then
    (values.texts value).map fun patterns => { settings with patterns := patterns }
  else if name = "deny_warnings".toList then
    (values.flag value).map fun denyWarnings => { settings with denyWarnings := denyWarnings }
  else none

def setAll? (values : Values α) : Settings → List (Text × α) → Option Settings
  | settings, [] => some settings
  | settings, (name, value) :: members =>
    match set? values settings name value with
    | some settings => setAll? values settings members
    | none => none

/-- The settings of a list of names and values, no name given twice. -/
def ofMembers? (values : Values α) (members : List (Text × α)) : Option Settings :=
  if (members.map (·.1)).Nodup then setAll? values {} members else none

end Settings
end PatternLint
