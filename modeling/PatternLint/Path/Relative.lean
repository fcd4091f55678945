import PatternLint.Path.Basic

/-!
# Relative paths

The way from one path to another, found by their components alone: nothing is looked up, so a dot at the start
of the base counts as a component and two dots in it cannot be taken back.
-/
namespace PatternLint.Path

/-- The components that lead from a base to a path. Common components are left out as long as none has been
    written (`started`); from there on each component of the base is taken back by two dots, and one that is a
    dot is passed along with one of the path. -/
def stepsFrom : Bool → List Component → List Component → Option (List Component)
  | _, path, [] => some path
  | _, [], _ :: base => (stepsFrom true [] base).map (.up :: ·)
  | started, a :: path, b :: base =>
    if !started && a = b then stepsFrom false path base
    else if b = .here then (stepsFrom true path base).map (a :: ·)
    else if b = .up then none
    else some (.up :: base.map (fun _ => .up) ++ a :: path)

def ofComponents (components : List Component) : Path := ⟨List.intercalate ['/'] (components.map (·.text))⟩

/-- A path as seen from a base, if there is a way. From a relative base an absolute path is seen as it is. -/
def relativeTo? (path base : Path) : Option Path :=
  if path.isAbsolute = base.isAbsolute then (stepsFrom false path.components base.components).map ofComponents
  else if path.isAbsolute then some path
  else none

end PatternLint.Path
