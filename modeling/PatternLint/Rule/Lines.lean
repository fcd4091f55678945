import PatternLint.Finding
import PatternLint.Line

/-!
# Rules about lines

What is wrong with a line by itself: a waveform played as a sample, an escape from the sandbox, an amount outside its
recommended range, and direct playback.
-/
namespace PatternLint

/-! ### Waveforms as samples

A call `s("…")` that stands alone plays a sample. The first such call of a line is judged: its argument must
not name a waveform.
-/

namespace Sample

/-- Whether a character before `s` makes it the end of a method or of a longer word. -/
def continuesWord (c : Char) : Bool := c = '.' || c.isAlphanum || c = '_'

/-- A call of `s` on a quoted argument that stands alone, capturing the argument. -/
def standaloneCall : Pattern Text where
  mayFollow last := last.all (!continuesWord ·)
  read := Reader.call ['s'] Reader.quoted
  advances := Reader.call_advances Reader.quoted_suffix

/-- The waveforms that the first standalone call of a line names as its sample. -/
def findings (line : Line) : List Finding :=
  match standaloneCall.find? line.text with
  | none => []
  | some call =>
    (Waveform.all.filter (·.named call.captured)).map fun wave =>
      ⟨line.number, line.text.columnAt (Text.byteLength call.before), .waveformAsSample call.captured wave⟩

end Sample

/-! ### Escapes from the sandbox

A line is reported once, for the first construct of the list that occurs in it. One search looks for all constructs at
once and tells which of them occur; another looks for the one that is reported and tells where.
-/

namespace Escape

/-- The constructs met so far and those at the front of a text. -/
def meet (met : List EscapeHatch) (text : Text) : List EscapeHatch :=
  EscapeHatch.all.filter fun hatch => met.contains hatch || (hatch.read text).isSome

/-- The constructs met so far and those anywhere in a text. -/
def meetAll : List EscapeHatch → Text → List EscapeHatch
  | met, [] => met
  | met, c :: text => meetAll (meet met (c :: text)) text

/-- The first construct of the list that occurs in a text. -/
def firstHatch? (text : Text) : Option EscapeHatch := EscapeHatch.all.find? (meetAll [] text).contains

/-- The place of a construct in a text, as the number of bytes before it. -/
def offset (hatch : EscapeHatch) (text : Text) : Nat :=
  match hatch.pattern.find? text with
  | some occurrence => Text.byteLength occurrence.before
  | none => 0

def findings (line : Line) : List Finding :=
  match firstHatch? line.text with
  | none => []
  | some hatch => [⟨line.number, line.text.columnAt (offset hatch line.text), .sandboxEscape hatch⟩]

end Escape

/-! ### Amounts outside the recommended range

For each effect the leftmost call on a numeral is judged by the binary number nearest to the numeral. A
numeral that cannot be read says nothing.
-/

namespace Range

/-- A call of an effect on a numeral, capturing the numeral. -/
def effectCall (effect : Effect) : Pattern Text where
  read := Reader.call ('.' :: effect.name) Reader.numeral
  advances := Reader.call_advances Reader.numeral_suffix

def judge (effect : Effect) (amount : Binary64) : Option Cause :=
  if amount.below (Binary64.nearest effect.least) then some (.belowRange effect amount)
  else if (Binary64.nearest effect.greatest).below amount then some (.aboveRange effect amount)
  else none

def finding? (line : Line) (effect : Effect) : Option Finding :=
  match (effectCall effect).find? line.text with
  | none => none
  | some call =>
    match Decimal.ofText? call.captured with
    | none => none
    | some amount =>
      (judge effect (Binary64.nearest amount)).map fun cause =>
        ⟨line.number, line.text.columnAt (Text.byteLength call.before), cause⟩

/-- The amounts of a line that are outside the recommended range, in the order of the effects. -/
def findings (line : Line) : List Finding := Effect.all.filterMap (finding? line)

end Range

/-! ### Direct playback

A line that calls `.play` is reported at its first `.play`, unless it mentions the state of playback. One search tells
whether there is a call, and another where the name is.
-/

namespace Playback

/-- A call of `.play`. -/
def playCall : Pattern Unit where
  read text := (Reader.opening ".play".toList text).map fun after => ((), after)
  advances result := by
    obtain ⟨after', read, same⟩ := Option.map_eq_some_iff.mp result
    cases same
    exact Reader.opening_advances read

def word (first : Char) (rest : Text) : Pattern Unit where
  read text := (Reader.literal (first :: rest) text).map fun after => ((), after)
  advances result := by
    obtain ⟨after', read, same⟩ := Option.map_eq_some_iff.mp result
    cases same
    exact ⟨first :: rest, by simp, Reader.literal_eq_some_iff.mp read⟩

/-- The method name alone, called or not. -/
def playName : Pattern Unit := word '.' "play".toList

def playbackState : Pattern Unit := word 'i' "sPlaying".toList

/-- The place of the method name in a text, as the number of bytes before it. -/
def offset (text : Text) : Nat :=
  match playName.find? text with
  | some name => Text.byteLength name.before
  | none => 0

def findings (line : Line) : List Finding :=
  if playCall.occursIn line.text && !playbackState.occursIn line.text then
    [⟨line.number, line.text.columnAt (offset line.text), .directPlay⟩]
  else []

end Playback

end PatternLint
