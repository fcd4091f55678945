import PatternLint.Json.Encoding
import PatternLint.Report.Listing

/-!
# Forms of output

Reports and the catalogue of rules are written as a listing for people or in JSON. Only a listing has colours.
-/
namespace PatternLint

/-- A form of output. -/
inductive OutputForm where
  | human | json
  deriving Repr, DecidableEq

namespace OutputForm

def name : OutputForm → Text
  | human => "human".toList
  | json => "json".toList

def ofName? (name : Text) : Option OutputForm := [human, json].find? fun form => form.name = name

def report (form : OutputForm) (color : Bool) (report : Report) : Text :=
  match form with
  | human => Listing.ofReport color report
  | json => (Json.ofReport report).toText

def rules (form : OutputForm) (color : Bool) (rules : List Rule) : Text :=
  match form with
  | human => Listing.ofRules color rules
  | json => (Json.ofRules rules).toText

end OutputForm
end PatternLint
