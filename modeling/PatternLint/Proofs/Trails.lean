import PatternLint.Proofs.Seats

/-!
# Paths and what is above them

A parent is a path without its last step, also where this step leads up (`Path.parent?_cases`). So the paths above one
that leads to a directory lead back along its own way, from its end to its beginning (`find?_seats`). All on this way are
directories, and it is the same in every tree that has them (`seat?_of_entry?`). If the path does not lead up, they are
at its end or above it (`prefix_of_mem_trail`).
-/
namespace PatternLint

namespace Path

/-! ### Parents -/

theorem dropVoid_concat (segments : List Text) (segment : Text) :
    dropVoid (segments ++ [segment]) = if isVoid segment then dropVoid segments else segments ++ [segment] := by
  simp only [dropVoid, List.reverse_append, List.reverse_singleton, List.singleton_append, List.dropWhile_cons]
  split <;> simp

theorem filterMap_dropVoid (segments : List Text) :
    (dropVoid segments).filterMap component? = segments.filterMap component? := by
  induction segments using List.reverseRecOn with
  | nil => rfl
  | append_singleton segments segment ih =>
    rw [dropVoid_concat]
    split
    · next void => simp [ih, (component?_eq_none_iff segment).mpr void]
    · rfl

theorem dropLastComponent?_concat (segments : List Text) (segment : Text) :
    dropLastComponent? (segments ++ [segment]) =
      if isVoid segment then dropLastComponent? segments else some (dropVoid segments) := by
  simp only [dropLastComponent?, dropVoid_concat]
  split <;> simp

/-- Without the last component pieces name all components but the last, and there is a last one if they name any. -/
theorem map_dropLastComponent? (segments : List Text) :
    (dropLastComponent? segments).map (·.filterMap component?) =
      if segments.filterMap component? = [] then none else some (segments.filterMap component?).dropLast := by
  induction segments using List.reverseRecOn with
  | nil => rfl
  | append_singleton segments segment ih =>
    rw [dropLastComponent?_concat, List.filterMap_append]
    split
    · next void => simp [ih, (component?_eq_none_iff segment).mpr void]
    · next solid =>
      rw [← component?_eq_none_iff, ← Ne, Option.ne_none_iff_exists'] at solid
      obtain ⟨component, named⟩ := solid
      simp [named, filterMap_dropVoid]

theorem filterMap_eq_nil_of_dropLastComponent? {segments : List Text} (dropped : dropLastComponent? segments = none) :
    segments.filterMap component? = [] := by
  have names := map_dropLastComponent? segments
  rw [dropped] at names
  by_contra some_step
  rw [if_neg some_step] at names
  cases names

theorem dropLastComponent?_eq_none {segments : List Text} (empty : segments.filterMap component? = []) :
    dropLastComponent? segments = none := by
  have names := map_dropLastComponent? segments
  rwa [if_pos empty, Option.map_eq_none_iff] at names

theorem filterMap_of_dropLastComponent? {segments start : List Text}
    (dropped : dropLastComponent? segments = some start) :
    start.filterMap component? = (segments.filterMap component?).dropLast := by
  have names := map_dropLastComponent? segments
  rw [dropped] at names
  split at names
  · cases names
  · exact Option.some.inj names

theorem segments_intercalate {segments : List Text} (some_segment : segments ≠ [])
    (free : ∀ segment ∈ segments, '/' ∉ segment) : Path.segments ⟨List.intercalate ['/'] segments⟩ = segments := by
  have single : ∀ segment ∈ segments, Text.splitOn '/' segment = [segment] := fun segment member =>
    Text.splitOn_eq_singleton (free segment member)
  rw [Path.segments, Text.splitOn_intercalate some_segment, List.flatMap_congr single]
  simp

/-- Pieces joined by slashes are a path with the steps that they name. -/
theorem steps_intercalate {segments : List Text} (free : ∀ segment ∈ segments, '/' ∉ segment) :
    steps ⟨List.intercalate ['/'] segments⟩ = segments.filterMap component? := by
  by_cases none : segments = []
  · cases none
    rfl
  · rw [steps, segments_intercalate none free]

theorem steps_ofSegments {segments : List Text} (free : ∀ segment ∈ segments, '/' ∉ segment) :
    (ofSegments segments).steps = segments.filterMap component? := by
  rw [ofSegments]
  split
  · next top => rw [top]; rfl
  · exact steps_intercalate free

theorem isAbsolute_intercalate {first : Text} (filled : first ≠ []) (free : '/' ∉ first) (rest : List Text) :
    isAbsolute ⟨List.intercalate ['/'] (first :: rest)⟩ = false := by
  obtain ⟨c, first, rfl⟩ := List.exists_cons_of_ne_nil filled
  have other : c ≠ '/' := fun same => free (same ▸ List.mem_cons_self)
  cases rest <;> simp [isAbsolute, List.intercalate, other]

theorem isAbsolute_ofSegments_top (rest : List Text) : (ofSegments ([] :: rest)).isAbsolute = true := by
  cases rest with
  | nil => rfl
  | cons next rest => simp [ofSegments, isAbsolute, List.intercalate]

theorem free_of_dropLastComponent? {segments start : List Text} (dropped : dropLastComponent? segments = some start)
    (free : ∀ segment ∈ segments, '/' ∉ segment) : ∀ segment ∈ start, '/' ∉ segment := by
  obtain ⟨more, rfl, _⟩ := dropLastComponent?_eq_some dropped
  exact fun segment member => free segment (List.mem_append_left more member)

/-- Pieces behind one that is no component make a path with their steps. -/
theorem steps_ofSegments_of_dropped {first : Text} {rest start : List Text} (void : component? first = none)
    (free : ∀ segment ∈ first :: rest, '/' ∉ segment) (dropped : dropLastComponent? rest = some start) :
    (ofSegments (first :: start)).steps = (rest.filterMap component?).dropLast := by
  obtain ⟨own, below⟩ := List.forall_mem_cons.mp free
  rw [steps_ofSegments (List.forall_mem_cons.mpr ⟨own, free_of_dropLastComponent? dropped below⟩),
    List.filterMap_cons_none void, filterMap_of_dropLastComponent? dropped]

/-- The pieces before the last component of a path that does not start at the top do not start there either. -/
theorem isAbsolute_of_dropped {path : Path} {start : List Text} (relative : path.isAbsolute = false)
    (dropped : dropLastComponent? path.segments = some start) :
    isAbsolute ⟨List.intercalate ['/'] start⟩ = false := by
  cases start with
  | nil => rfl
  | cons first start =>
    have filled : path.text ≠ [] := by
      intro empty
      rw [segments, empty] at dropped
      cases dropped
    obtain ⟨more, pieces, _⟩ := dropLastComponent?_eq_some dropped
    have some_text := head?_segments_ne_nil filled relative
    rw [pieces, List.cons_append, List.head?_cons, Ne, Option.some.injEq] at some_text
    have member : first ∈ path.segments := by
      rw [pieces]
      exact List.mem_cons_self
    exact isAbsolute_intercalate some_text (not_mem_of_mem_segments member) start

/-- A path has a parent with all its steps but the last, which starts where the path does, or it has no steps. -/
theorem parent?_cases (path : Path) : (path.parent? = none ∧ path.steps = []) ∨
    ∃ parent, path.parent? = some parent ∧ parent.steps = path.steps.dropLast ∧
      parent.isAbsolute = path.isAbsolute := by
  obtain ⟨first, rest, pieces⟩ := List.exists_cons_of_ne_nil path.segments_ne_nil
  have free : ∀ segment ∈ first :: rest, '/' ∉ segment := fun segment member =>
    not_mem_of_mem_segments (pieces ▸ member)
  rw [steps, parent?, pieces]
  dsimp only
  split
  · next absolute =>
    -- the first piece stands for the top
    have top := head?_segments_of_isAbsolute absolute
    rw [pieces] at top
    cases top
    rw [List.filterMap_cons_none rfl, absolute]
    cases dropped : dropLastComponent? rest with
    | none => exact .inl ⟨rfl, filterMap_eq_nil_of_dropLastComponent? dropped⟩
    | some start =>
      exact .inr ⟨_, rfl, steps_ofSegments_of_dropped rfl free dropped, isAbsolute_ofSegments_top start⟩
  · next relative =>
    rw [Bool.not_eq_true] at relative
    rw [relative]
    split
    · next here =>
      cases here
      rw [List.filterMap_cons_none rfl]
      cases dropped : dropLastComponent? rest with
      | none =>
        rw [filterMap_eq_nil_of_dropLastComponent? dropped]
        exact .inr ⟨_, rfl, rfl, rfl⟩
      | some start =>
        refine .inr ⟨_, rfl, steps_ofSegments_of_dropped rfl free dropped, ?_⟩
        rw [ofSegments, if_neg (by simp)]
        exact isAbsolute_intercalate (by decide) (by decide) start
    · cases dropped : dropLastComponent? (first :: rest) with
      | none => exact .inl ⟨rfl, filterMap_eq_nil_of_dropLastComponent? dropped⟩
      | some start =>
        refine .inr ⟨_, rfl, ?_, isAbsolute_of_dropped relative (pieces ▸ dropped)⟩
        rw [steps_intercalate (free_of_dropLastComponent? dropped free), filterMap_of_dropLastComponent? dropped]

theorem ancestors_of_parent?_eq_none {path : Path} (top : path.parent? = none) : path.ancestors = [path] := by
  rw [ancestors]
  split <;> simp_all

theorem ancestors_of_parent? {path parent : Path} (above : path.parent? = some parent) :
    path.ancestors = path :: parent.ancestors := by
  rw [ancestors]
  split <;> simp_all

end Path

namespace FileSystem

/-! ### The directories on a path -/

/-- Where a step leads from a location. -/
def follow (location : Location) : Path.Component → Location
  | .up => location.dropLast
  | step => location ++ (Name.ofText? step.text).toList

/-- Where the beginnings of a path lead, the whole path first and nothing of it last. -/
def trail (files : FileSystem) (path : Path) : List Location :=
  (path.steps.scanl follow (files.start path)).reverse

variable {files : FileSystem} {path parent : Path} {location next place : Location}

theorem follow_of_step {step : Path.Component} (isStep : step.IsStep)
    (stepped : files.step location step.text = .ok next) : follow location step = next := by
  rw [FileSystem.step, entry?_of_step stepped] at stepped
  dsimp only at stepped
  cases isStep with
  | up =>
    cases stepped
    rfl
  | @name text solid other =>
    rw [Path.Component.text, solid, if_neg Bool.false_ne_true, if_neg other] at stepped
    have below : follow location (.name text) = location ++ (Name.ofText? text).toList := rfl
    rw [below]
    cases named : Name.ofText? text with
    | none =>
      rw [named] at stepped
      cases stepped
    | some name =>
      rw [named] at stepped
      cases stepped
      rfl

theorem foldl_follow_of_walk {steps : List Path.Component} (own : ∀ step ∈ steps, step.IsStep)
    (walked : files.walk location (steps.map (·.text)) = .ok place) : steps.foldl follow location = place := by
  induction steps generalizing location with
  | nil =>
    cases walked
    rfl
  | cons step steps ih =>
    obtain ⟨first, later⟩ := List.forall_mem_cons.mp own
    obtain ⟨next, stepped, onward⟩ := walk_cons_eq_ok_iff.1 walked
    rw [List.foldl_cons, follow_of_step first stepped]
    exact ih later onward

theorem foldl_follow_of_seat? (seated : files.seat? path = some place) :
    path.steps.foldl follow (files.start path) = place :=
  foldl_follow_of_walk (fun _ => Path.isStep_of_mem_steps) (seat?_eq_some_iff.mp seated).2.1

theorem trail_of_steps_eq_nil (seated : files.seat? path = some place) (none : path.steps = []) :
    files.trail path = [place] := by
  have whole := foldl_follow_of_seat? seated
  rw [none, List.foldl_nil] at whole
  rw [trail, none, whole]
  rfl

theorem start_congr {other : Path} (same : other.isAbsolute = path.isAbsolute) : files.start other = files.start path := by
  rw [start, start, same]

theorem trail_of_parent? (seated : files.seat? path = some place) (side : parent.isAbsolute = path.isAbsolute)
    (above : parent.steps = path.steps.dropLast) (some_step : path.steps ≠ []) :
    files.trail path = place :: files.trail parent := by
  have whole := foldl_follow_of_seat? seated
  have last := List.dropLast_concat_getLast some_step
  rw [trail, trail, start_congr side, above, ← last, List.dropLast_concat, List.scanl_append, List.reverse_append]
  rw [← last, List.foldl_append, List.foldl_cons, List.foldl_nil] at whole
  simp [whole]

/-- A path above one that leads to a directory leads to one as well. -/
theorem exists_seat?_of_parent? (seated : files.seat? path = some place) (side : parent.isAbsolute = path.isAbsolute)
    (above : parent.steps = path.steps.dropLast) : ∃ seat, files.seat? parent = some seat := by
  obtain ⟨clean, walked, there⟩ := seat?_eq_some_iff.mp seated
  have nul : '\x00' ∉ parent.text := by
    rw [Path.mem_text_iff _ (by decide) (by decide)] at clean ⊢
    rw [above]
    exact fun ⟨step, member, inside⟩ => clean ⟨step, List.dropLast_subset _ member, inside⟩
  simp only [seat?_eq_some_iff, start_congr side, above]
  by_cases none : path.steps = []
  · rw [none] at walked ⊢
    exact ⟨place, nul, walked, there⟩
  · rw [← List.dropLast_concat_getLast none, List.map_append, walk_append_eq_ok_iff] at walked
    obtain ⟨seat, walked, onward⟩ := walked
    obtain ⟨_, stepped, _⟩ := walk_cons_eq_ok_iff.1 onward
    exact ⟨seat, nul, walked, entry?_of_step stepped⟩

/-- The seats of a path and of the paths above it are the directories on the path, the last of which can come twice. -/
theorem find?_seats (seated : files.seat? path = some place) (condition : Option Location → Bool) :
    (path.ancestors.map files.seat?).find? condition = ((files.trail path).map some).find? condition := by
  induction path using Path.ancestors.induct generalizing place with
  | case1 path top =>
    obtain ⟨_, none⟩ | ⟨parent, above, _⟩ := path.parent?_cases
    · rw [Path.ancestors_of_parent?_eq_none top, trail_of_steps_eq_nil seated none, List.map_singleton, seated]
      rfl
    · cases top.symm.trans above
  | case2 path parent above ih =>
    obtain ⟨top, _⟩ | ⟨other, alsoAbove, dropped, side⟩ := path.parent?_cases
    · cases top.symm.trans above
    · cases above.symm.trans alsoAbove
      obtain ⟨seat, onward⟩ := exists_seat?_of_parent? seated side dropped
      rw [Path.ancestors_of_parent? above, List.map_cons, List.find?_cons, ih onward, seated]
      by_cases none : path.steps = []
      · have same : files.trail parent = files.trail path := by
          rw [trail, trail, start_congr side, dropped, none, List.dropLast_nil]
        rw [same, trail_of_steps_eq_nil seated none, List.map_singleton, List.find?_singleton]
        cases condition (some place) <;> rfl
      · rw [trail_of_parent? seated side dropped none, List.map_cons, List.find?_cons]

section
variable {steps : List Path.Component} (own : ∀ step ∈ steps, step.IsStep)
  (walked : files.walk location (steps.map (·.text)) = .ok place)
include own walked

theorem entry?_of_mem_scanl (there : files.entry? place = some .directory) {passed : Location}
    (member : passed ∈ steps.scanl follow location) : files.entry? passed = some .directory := by
  induction steps generalizing location with
  | nil =>
    cases walked
    rwa [List.mem_singleton.mp member]
  | cons step steps ih =>
    obtain ⟨first, later⟩ := List.forall_mem_cons.mp own
    obtain ⟨next, stepped, onward⟩ := walk_cons_eq_ok_iff.1 walked
    rw [List.scanl_cons, follow_of_step first stepped, List.mem_cons] at member
    rcases member with rfl | member
    · exact entry?_of_step stepped
    · exact ih later onward member

/-- A walk goes the same way in every tree that has the directories on it. -/
theorem walk_of_entry? {other : FileSystem}
    (directories : ∀ passed ∈ steps.scanl follow location, other.entry? passed = some .directory) :
    other.walk location (steps.map (·.text)) = .ok place := by
  induction steps generalizing location with
  | nil => exact walked
  | cons step steps ih =>
    obtain ⟨first, later⟩ := List.forall_mem_cons.mp own
    obtain ⟨next, stepped, onward⟩ := walk_cons_eq_ok_iff.1 walked
    rw [List.scanl_cons, follow_of_step first stepped] at directories
    obtain ⟨here, below⟩ := List.forall_mem_cons.mp directories
    refine walk_cons_eq_ok_iff.2 ⟨next, ?_, ih later onward below⟩
    rw [FileSystem.step, entry?_of_step stepped] at stepped
    rw [FileSystem.step, here]
    exact stepped

end

/-- All that a path to a directory leads through are directories. -/
theorem entry?_of_mem_trail (seated : files.seat? path = some place) (member : location ∈ files.trail path) :
    files.entry? location = some .directory := by
  obtain ⟨-, walked, there⟩ := seat?_eq_some_iff.mp seated
  exact entry?_of_mem_scanl (fun _ => Path.isStep_of_mem_steps) walked there (List.mem_reverse.mp member)

theorem trail_congr {other : FileSystem} (same : other.here = files.here) : other.trail path = files.trail path := by
  rw [trail, trail, start, start, same]

/-- The way of a path to a directory is the same in every tree that has the directories on it. -/
theorem seat?_of_entry? {other : FileSystem} (seated : files.seat? path = some place) (same : other.here = files.here)
    (directories : ∀ passed ∈ files.trail path, other.entry? passed = some .directory) :
    other.seat? path = some place := by
  obtain ⟨clean, walked, there⟩ := seat?_eq_some_iff.mp seated
  have whole := foldl_follow_of_seat? seated
  have own : ∀ step ∈ path.steps, step.IsStep := fun _ => Path.isStep_of_mem_steps
  have origin : other.start path = files.start path := by rw [start, start, same]
  simp only [trail, List.mem_reverse] at directories
  rw [seat?_eq_some_iff, origin]
  refine ⟨clean, walk_of_entry? own walked directories, directories place ?_⟩
  exact whole ▸ List.mem_of_getLast? List.getLast?_scanl

/-- Names lead down only. -/
theorem prefix_of_mem_scanl {steps : List Path.Component} (descending : .up ∉ steps) {passed : Location}
    (member : passed ∈ steps.scanl follow location) : passed <+: steps.foldl follow location := by
  induction steps generalizing location passed with
  | nil => exact List.mem_singleton.mp member ▸ List.prefix_rfl
  | cons step steps ih =>
    rw [List.mem_cons, not_or] at descending
    obtain ⟨other, later⟩ := descending
    rw [List.scanl_cons] at member
    rcases List.mem_cons.mp member with rfl | member
    · have down : passed <+: follow passed step := by
        cases step with
        | up => exact absurd rfl other
        | _ => exact List.prefix_append _ _
      have onward : follow passed step <+: steps.foldl follow (follow passed step) :=
        ih later (List.mem_of_head? List.head?_scanl)
      exact down.trans onward
    · exact ih later member

theorem prefix_of_mem_trail (seated : files.seat? path = some place) (descending : .up ∉ path.steps)
    (member : location ∈ files.trail path) : location <+: place := by
  rw [← foldl_follow_of_seat? seated]
  exact prefix_of_mem_scanl descending (List.mem_reverse.mp member)

/-- A directory lies in directories. -/
theorem entry?_of_above {below : Location} (there : files.entry? below = some .directory) (above : location <+: below) :
    files.entry? location = some .directory := by
  obtain ⟨way, rfl⟩ := above
  cases way with
  | nil => rwa [List.append_nil] at there
  | cons name way => exact entry?_of_holds (List.cons_ne_nil name way) (holds_of_eq_some there)

/-- A file system of nothing but directories. -/
def ofDirectories (here : Location) (directories : List Location) : FileSystem :=
  ⟨directories.map fun location => (location, .directory), here⟩

theorem holds_ofDirectories_iff (here : Location) (directories : List Location) :
    (ofDirectories here directories).holds location = true ↔
      location = [] ∨ ∃ directory ∈ directories, location <+: directory := by
  rw [holds_iff, ofDirectories]
  simp

theorem entry?_ofDirectories {here : Location} {directories : List Location}
    (there : (ofDirectories here directories).holds location = true) :
    FileSystem.entry? (ofDirectories here directories) location = some .directory := by
  obtain ⟨entry, found⟩ := exists_entry_of_holds there
  rw [found]
  unfold entry? at found
  split at found
  · exact found.symm
  · obtain ⟨listed, first, rfl⟩ := Option.map_eq_some_iff.mp found
    obtain ⟨directory, _, rfl⟩ := List.mem_map.mp (List.mem_of_find?_eq_some first)
    rfl

end FileSystem
end PatternLint
