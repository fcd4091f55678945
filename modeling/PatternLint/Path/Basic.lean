import PatternLint.Text.Basic

/-!
# Paths

A path keeps its spelling. Its components are what the spelling says: doubled slashes, a slash at the end and
single dots inside do not count, while a dot at the start is a component, and two dots are not resolved. Paths
are compared by their components.
-/
namespace PatternLint

/-- A path as it is spelled. -/
structure Path where
  text : Text
  deriving Repr, DecidableEq

namespace Path

/-- A component of a path. -/
inductive Component where
  | root
  | here
  | up
  | name (text : Text)
  deriving Repr, DecidableEq

namespace Component

def text : Component → Text
  | root => ['/']
  | here => ['.']
  | up => ['.', '.']
  | name text => text

/-- What components are compared by: root, here and up stand before all names, and names are in the order of
    their characters. -/
def key : Component → List Nat
  | root => [0]
  | here => [1]
  | up => [2]
  | name text => 3 :: text.map Char.toNat

end Component

def isAbsolute (path : Path) : Bool := path.text.head? = some '/'

def segments (path : Path) : List Text := path.text.splitOn '/'

/-- Whether a piece between slashes is empty or a single dot, and so no component. -/
def isVoid (segment : Text) : Bool := segment.isEmpty || segment = ['.']

def component? (segment : Text) : Option Component :=
  if isVoid segment then none else if segment = ['.', '.'] then some .up else some (.name segment)

def components (path : Path) : List Component :=
  match path.segments with
  | [] => []
  | first :: rest =>
    let start := if path.isAbsolute then some .root else if first = ['.'] then some .here else component? first
    start.toList ++ rest.filterMap component?

/-- What paths are compared by. -/
def key (path : Path) : List (List Nat) := path.components.map (·.key)

/-- Paths are compared component by component. -/
def order (a b : Path) : Ordering := compare a.key b.key

/-- Whether a path is the current directory, in any spelling. -/
def isHere (path : Path) : Bool := path.components = [.here]

/-- A path below a base. An absolute path stands for itself. -/
def join (base path : Path) : Path :=
  if path.isAbsolute then path
  else if base.text.isEmpty || base.text.getLast? = some '/' then ⟨base.text ++ path.text⟩
  else ⟨base.text ++ '/' :: path.text⟩

/-- Pieces joined by slashes; a single empty piece is the top. -/
def ofSegments (segments : List Text) : Path :=
  if segments = [[]] then ⟨['/']⟩ else ⟨List.intercalate ['/'] segments⟩

/-- Pieces without those at the end that are no components. -/
def dropVoid (segments : List Text) : List Text := (segments.reverse.dropWhile isVoid).reverse

/-- Pieces without the last component, if there is one. -/
def dropLastComponent? (segments : List Text) : Option (List Text) :=
  if dropVoid segments = [] then none else some (dropVoid (dropVoid segments).dropLast)

/-- A path without its last component. The top and the empty path have no parent; that of a dot or of a single
    name is the empty path. -/
def parent? (path : Path) : Option Path :=
  match path.segments with
  | [] => none
  | first :: rest =>
    if path.isAbsolute then (dropLastComponent? rest).map fun segments => ofSegments (first :: segments)
    else if first = ['.'] then
      match dropLastComponent? rest with
      | none => some ⟨[]⟩
      | some segments => some (ofSegments (first :: segments))
    else (dropLastComponent? (first :: rest)).map fun segments => ⟨List.intercalate ['/'] segments⟩

/-! ### Ancestors -/

/-- A text that starts a longer list of pieces is shorter than the whole, once one of the further pieces or the
    slash before them counts. -/
theorem length_intercalate_lt (start more : List Text) (counts : start ≠ [] ∨ ∃ segment ∈ more, segment ≠ [])
    (further : more ≠ []) :
    (List.intercalate ['/'] start).length < (List.intercalate ['/'] (start ++ more)).length := by
  induction start with
  | nil =>
    obtain ⟨segment, member, filled⟩ : ∃ segment ∈ more, segment ≠ [] := by simpa using counts
    have := List.length_pos_iff.mpr filled
    have sub : segment.length ≤ (List.intercalate ['/'] more).length := by
      clear counts further
      induction more with
      | nil => simp at member
      | cons first more ih =>
        cases more with
        | nil => simp at member; simp [List.intercalate, member]
        | cons second more =>
          rcases List.mem_cons.mp member with same | later
          · simp [List.intercalate, same]
          · have := ih later
            simp [List.intercalate] at this ⊢
            omega
    simp at this ⊢
    omega
  | cons first start ih =>
    cases start with
    | nil =>
      cases more with
      | nil => exact absurd rfl further
      | cons second more => simp [List.intercalate]
    | cons second start =>
      have := ih (.inl (by simp))
      simpa [List.intercalate] using this

/-- What is left without the last component is a start of the pieces, and the component comes after it. -/
theorem dropLastComponent?_eq_some {segments start : List Text} (dropped : dropLastComponent? segments = some start) :
    ∃ more, segments = start ++ more ∧ ∃ segment ∈ more, segment ≠ [] := by
  have starts (segments : List Text) : dropVoid segments <+: segments := by
    rw [dropVoid, ← List.reverse_suffix, List.reverse_reverse]
    exact List.dropWhile_suffix _
  unfold dropLastComponent? at dropped
  split at dropped
  · simp at dropped
  · next nonempty =>
    obtain ⟨after, all⟩ := starts segments
    obtain ⟨voids, init⟩ := starts (dropVoid segments).dropLast
    simp only [Option.some.injEq] at dropped
    rw [dropped] at init
    have last := List.dropLast_concat_getLast nonempty
    refine ⟨voids ++ (dropVoid segments).getLast nonempty :: after, ?_, (dropVoid segments).getLast nonempty,
      by simp, ?_⟩
    · conv => lhs; rw [← all, ← last, ← init]
      simp
    · intro empty
      have void : isVoid ((dropVoid segments).getLast nonempty) = true := by simp [empty, isVoid]
      have head : (segments.reverse.dropWhile isVoid) ≠ [] := by simpa [dropVoid] using nonempty
      have := List.head_dropWhile_not isVoid head
      simp [dropVoid, List.getLast_reverse] at void
      simp [void] at this

theorem intercalate_segments (path : Path) : List.intercalate ['/'] path.segments = path.text :=
  Text.intercalate_splitOn '/' path.text

/-- A parent is spelled shorter. -/
theorem length_parent?_lt {path parent : Path} (above : path.parent? = some parent) :
    parent.text.length < path.text.length := by
  have spelled := intercalate_segments path
  unfold parent? at above
  split at above
  · simp at above
  · next first rest pieces =>
    rw [pieces] at spelled
    rw [← spelled]
    have below {start : List Text} (dropped : dropLastComponent? rest = some start) :
        (ofSegments (first :: start)).text.length < (List.intercalate ['/'] (first :: rest)).length := by
      obtain ⟨more, rfl, counts⟩ := dropLastComponent?_eq_some dropped
      obtain ⟨segment, member, filled⟩ := counts
      unfold ofSegments
      split
      · next top =>
        simp only [List.cons.injEq] at top
        obtain ⟨rfl, rfl⟩ := top
        have := length_intercalate_lt [] more (.inr ⟨segment, member, filled⟩) (List.ne_nil_of_mem member)
        cases more with
        | nil => simp at member
        | cons second more => simp [List.intercalate] at this ⊢; omega
      · exact length_intercalate_lt (first :: start) more (.inl (by simp)) (List.ne_nil_of_mem member)
    split at above
    · obtain ⟨start, dropped, rfl⟩ := Option.map_eq_some_iff.mp above
      exact below dropped
    · split at above
      · next here =>
        split at above
        · simp only [Option.some.injEq] at above
          subst above
          cases rest <;> simp [here, List.intercalate]
        · next start dropped =>
          simp only [Option.some.injEq] at above
          subst above
          exact below dropped
      · obtain ⟨start, dropped, rfl⟩ := Option.map_eq_some_iff.mp above
        obtain ⟨more, same, segment, member, filled⟩ := dropLastComponent?_eq_some dropped
        rw [same]
        exact length_intercalate_lt start more (.inr ⟨segment, member, filled⟩) (List.ne_nil_of_mem member)

def ancestors (path : Path) : List Path :=
  match _ : path.parent? with
  | none => [path]
  | some parent => path :: ancestors parent
termination_by path.text.length
decreasing_by exact length_parent?_lt (by assumption)

end Path
end PatternLint
