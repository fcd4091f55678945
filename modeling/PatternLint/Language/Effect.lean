import PatternLint.Number.Shortest

/-!
# Effects

The effects whose amount has a recommended range, and the range of each.
-/
namespace PatternLint

/-- An effect with a recommended range. -/
inductive Effect where
  | distort | distortion | resonance | room | lowPass
  deriving Repr, DecidableEq

namespace Effect

/-- Every effect, in the order of reports. -/
def all : List Effect := [distort, distortion, resonance, room, lowPass]

def name : Effect → Text
  | distort => "distort".toList
  | distortion => "distortion".toList
  | resonance => "resonance".toList
  | room => "room".toList
  | lowPass => "lpf".toList

/-- The least recommended amount. -/
def least : Effect → Decimal
  | distort | distortion | room => ⟨0, 0⟩
  | resonance => ⟨2, 1⟩
  | lowPass => ⟨200, 0⟩

def greatest : Effect → Decimal
  | distort | distortion => ⟨15, 2⟩
  | resonance => ⟨8, 1⟩
  | room => ⟨7, 1⟩
  | lowPass => ⟨3000, 0⟩

end Effect
end PatternLint
