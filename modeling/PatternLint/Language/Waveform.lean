import PatternLint.Text.Basic

/-!
# Waveforms

The synthesised sounds. A pattern names one as the sound of its notes; it is no recorded sample.
-/
namespace PatternLint

/-- The waveforms and noise that a synth plays. -/
inductive Waveform where
  | saw | sawtooth | square | sine | triangle | pulse | noise
  deriving Repr, DecidableEq

namespace Waveform

def all : List Waveform := [saw, sawtooth, square, sine, triangle, pulse, noise]

def name : Waveform → Text
  | saw => "saw".toList
  | sawtooth => "sawtooth".toList
  | square => "square".toList
  | sine => "sine".toList
  | triangle => "triangle".toList
  | pulse => "pulse".toList
  | noise => "noise".toList

/-- Whether a sample name, in any case, is that of a waveform or continues it with a slash. -/
def named (wave : Waveform) (sample : Text) : Bool :=
  sample.lowercase = wave.name || (wave.name ++ ['/']).isPrefixOf sample.lowercase

end Waveform
end PatternLint
