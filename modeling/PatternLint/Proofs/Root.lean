import PatternLint.Config.Root
import PatternLint.Proofs.Trails

/-!
# Where the root is

The root is searched along the spelling of the start. So it is the nearest directory with a mark among those that the
start leads through (`seat?_root`), and where the start leads up it need not be at the start or above it
(`root_below_start`). Whether it is in all trees depends on which of these directories can come first (`root_exact`).
-/
namespace PatternLint.Config

variable {files : FileSystem} {start : Path} {place : Location}

/-! ### The root -/

/-- Whether a mark of a root is in a directory. -/
def hasMark (files : FileSystem) (location : Location) : Bool :=
  (files.names location).any fun name => marks.contains name.text

theorem hasMark_iff {location : Location} : hasMark files location = true ↔
    ∃ name : Name, name.text ∈ marks ∧ files.holds (location ++ [name]) = true := by
  simp [hasMark, FileSystem.mem_names_iff, and_comm]

theorem isEntryName_of_mem_marks {mark : Text} (member : mark ∈ marks) : isEntryName mark = true :=
  List.all_eq_true.mp (by decide : marks.all isEntryName = true) mark member

theorem isMarked_eq (files : FileSystem) (path : Path) : isMarked files path = (files.seat? path).any (hasMark files) := by
  rw [Bool.eq_iff_iff, isMarked, List.any_eq_true, Option.any_eq_true]
  simp only [hasMark_iff]
  constructor
  · rintro ⟨mark, member, there⟩
    let name : Name := ⟨mark, isEntryName_of_mem_marks member⟩
    have found : files.exists? (path.join ⟨name.text⟩) = true := there
    obtain ⟨seat, seated, there⟩ := FileSystem.exists?_join_iff.mp found
    exact ⟨seat, seated, name, member, there⟩
  · rintro ⟨seat, seated, name, member, there⟩
    exact ⟨name.text, member, FileSystem.exists?_join_iff.mpr ⟨seat, seated, there⟩⟩

/-- The root is the first directory with a mark on the way back along the start, and the start if there is none. -/
theorem seat?_root (seated : files.seat? start = some place) : files.seat? (root files start) =
    some (((files.trail start).find? (hasMark files)).getD place) := by
  have found := FileSystem.find?_seats seated (·.any (hasMark files))
  have marked : (·.any (hasMark files)) ∘ files.seat? = isMarked files := funext fun path => (isMarked_eq files path).symm
  have alike : (·.any (hasMark files)) ∘ some = hasMark files := rfl
  rw [List.find?_map, List.find?_map, marked, alike] at found
  rw [root]
  cases first : start.ancestors.find? (isMarked files) with
  | none =>
    rw [first, Option.map_none, eq_comm, Option.map_eq_none_iff] at found
    rw [found, Option.getD_none, Option.getD_none, seated]
  | some path =>
    rw [first, Option.map_some] at found
    obtain ⟨location, nearest, same⟩ := Option.map_eq_some_iff.mp found.symm
    rw [nearest, Option.getD_some, Option.getD_some, same]

/-- Whether the root is at the start or above it. -/
def RootAbove (files : FileSystem) (start : Path) : Prop :=
  ∃ place seat, files.directory? start = some place ∧ files.seat? (root files start) = some seat ∧ seat <+: place

/-- Whether a directory on a trail comes first in some tree: the trail does not lead into a mark of a nearer one. -/
def CanBeFirst (trail : List Location) (location : Location) : Prop :=
  ∃ nearer farther, trail = nearer ++ location :: farther ∧ location ∉ nearer ∧
    ∀ other ∈ nearer, ∀ name : Name, name.text ∈ marks → ∀ passed ∈ trail, ¬ other ++ [name] <+: passed

theorem canBeFirst_of_find? (seated : files.seat? start = some place) {location : Location}
    (first : (files.trail start).find? (hasMark files) = some location) : CanBeFirst (files.trail start) location := by
  obtain ⟨marked, nearer, farther, trail, unmarked⟩ := List.find?_eq_some_iff_append.mp first
  refine ⟨nearer, farther, trail, fun again => ?_, fun other member name mark passed onTrail into => ?_⟩
  · simpa [marked] using unmarked location again
  · have there := FileSystem.entry?_of_above (FileSystem.entry?_of_mem_trail seated onTrail) into
    have also : hasMark files other = true := hasMark_iff.mpr ⟨name, mark, FileSystem.holds_of_eq_some there⟩
    simpa [also] using unmarked other member

/-- The mark of a repository. -/
def repository : Name := ⟨".git".toList, rfl⟩

theorem repository_mem_marks : repository.text ∈ marks := by decide

/-- The directories on a trail, and a repository in one of them. -/
def withRepository (here : Location) (trail : List Location) (location : Location) : FileSystem :=
  .ofDirectories here ((location ++ [repository]) :: trail)

theorem find?_withRepository {here : Location} {trail : List Location} {location : Location}
    (first : CanBeFirst trail location) :
    trail.find? (hasMark (withRepository here trail location)) = some location := by
  obtain ⟨nearer, farther, own, new, apart⟩ := first
  refine List.find?_eq_some_iff_append.mpr ⟨?_, nearer, farther, own, fun other member => ?_⟩
  · exact hasMark_iff.mpr ⟨repository, repository_mem_marks,
      (FileSystem.holds_ofDirectories_iff _ _).mpr (.inr ⟨_, List.mem_cons_self, List.prefix_rfl⟩)⟩
  · rw [Bool.not_eq_true', Bool.eq_false_iff, Ne, hasMark_iff]
    rintro ⟨name, mark, there⟩
    rcases (FileSystem.holds_ofDirectories_iff _ _).mp there with none | ⟨directory, listed, into⟩
    · simp at none
    · rcases List.mem_cons.mp listed with rfl | onTrail
      · -- a mark on the way to the repository is the repository or above it
        rcases List.prefix_concat_iff.mp into with same | above
        · exact new ((List.append_inj' same rfl).1 ▸ member)
        · exact apart other member name mark location (own ▸ by simp) above
      · exact apart other member name mark directory onTrail into

theorem rootAbove_of_find? (there : files.directory? start = some place)
    (above : ∀ location, (files.trail start).find? (hasMark files) = some location → location <+: place) :
    RootAbove files start := by
  refine ⟨place, _, there, seat?_root (FileSystem.seat?_of_directory? there), ?_⟩
  cases first : (files.trail start).find? (hasMark files) with
  | none => exact List.prefix_rfl
  | some location => exact above location first

/-- The place of a start does not depend on what else is in the tree. -/
theorem place_congr {other : FileSystem} {another : Location} (there : files.directory? start = some place)
    (same : other.here = files.here) (also : other.directory? start = some another) : another = place := by
  have own := FileSystem.foldl_follow_of_seat? (FileSystem.seat?_of_directory? there)
  have others := FileSystem.foldl_follow_of_seat? (FileSystem.seat?_of_directory? also)
  rw [FileSystem.start, same] at others
  exact others.symm.trans own

/-- A directory that can come first does, in a tree with a repository in it. -/
theorem prefix_of_rootAbove (there : files.directory? start = some place) {location : Location}
    (first : CanBeFirst (files.trail start) location)
    (above : ∀ other : FileSystem, other.here = files.here → (other.directory? start).isSome = true →
      RootAbove other start) : location <+: place := by
  have seated := FileSystem.seat?_of_directory? there
  have filled := Glob.text_ne_nil_of_directory? there
  let other := withRepository files.here (files.trail start) location
  have same : other.here = files.here := rfl
  have also : other.seat? start = some place := FileSystem.seat?_of_entry? seated same fun passed onTrail =>
    FileSystem.entry?_ofDirectories
      ((FileSystem.holds_ofDirectories_iff _ _).mpr (.inr ⟨passed, List.mem_cons_of_mem _ onTrail, List.prefix_rfl⟩))
  have found : other.directory? start = some place := FileSystem.seat?_of_ne_nil other filled ▸ also
  obtain ⟨_, seat, own, rooted, inside⟩ := above other same (by rw [found]; rfl)
  cases found.symm.trans own
  rw [seat?_root also, FileSystem.trail_congr same, find?_withRepository first] at rooted
  cases rooted
  exact inside

/-- The root of a start is the nearest directory with a mark among those that the start leads through, from its end to
    its beginning, and the start itself if none has a mark. It is at the start or above it if the start does not lead up.
    It is so in all trees with the same current directory in which the start leads to a directory just when this holds
    for every directory that can come first among those that the start leads through. -/
theorem root_exact (there : files.directory? start = some place) :
    files.seat? (root files start) = some (((files.trail start).find? (hasMark files)).getD place) ∧
    (.up ∉ start.steps → RootAbove files start) ∧
    ((∀ other : FileSystem, other.here = files.here → (other.directory? start).isSome = true → RootAbove other start) ↔
      ∀ location, CanBeFirst (files.trail start) location → location <+: place) := by
  have seated := FileSystem.seat?_of_directory? there
  refine ⟨seat?_root seated, fun descending => ?_, fun above location first => prefix_of_rootAbove there first above,
    fun above other same found => ?_⟩
  · exact rootAbove_of_find? there fun location first =>
      FileSystem.prefix_of_mem_trail seated descending (List.mem_of_find?_eq_some first)
  · obtain ⟨another, also⟩ := Option.isSome_iff_exists.mp found
    cases place_congr there same also
    refine rootAbove_of_find? also fun location first => above location ?_
    rw [← FileSystem.trail_congr same]
    exact canBeFirst_of_find? (FileSystem.seat?_of_directory? also) first

/-- Two directories beside a repository. -/
def siblings : FileSystem := .ofDirectories [] [[⟨['a'], rfl⟩], [⟨['b'], rfl⟩], [repository]]

/-- A start that takes a detour on its way to a directory below a repository: the root is the top, but in another tree the
    directory of the detour comes first. -/
theorem root_exact_detour : siblings.directory? ⟨"a/../b".toList⟩ = some [⟨['b'], rfl⟩] ∧
    siblings.seat? (root siblings ⟨"a/../b".toList⟩) = some [] ∧
    ¬ ∀ other : FileSystem, other.here = siblings.here → (other.directory? ⟨"a/../b".toList⟩).isSome = true →
      RootAbove other ⟨"a/../b".toList⟩ := by
  let a : Name := ⟨['a'], rfl⟩
  let b : Name := ⟨['b'], rfl⟩
  have there : siblings.directory? ⟨"a/../b".toList⟩ = some [b] := by decide
  have trail : siblings.trail ⟨"a/../b".toList⟩ = [[b], [], [a], []] := by decide
  have bare : ¬ hasMark siblings [b] = true := by
    rw [hasMark_iff]
    rintro ⟨name, -, there⟩
    rw [siblings, FileSystem.holds_ofDirectories_iff] at there
    simp at there
  have marked : hasMark siblings [] = true := hasMark_iff.mpr ⟨repository, repository_mem_marks, by decide⟩
  have first : ([[b], [], [a], []] : List Location).find? (hasMark siblings) = some [] := by
    rw [List.find?_cons_of_neg bare, List.find?_cons_of_pos marked]
  obtain ⟨found, -, everywhere⟩ := root_exact there
  rw [trail] at found everywhere
  rw [first] at found
  refine ⟨there, found, fun always => ?_⟩
  have detour : CanBeFirst [[b], [], [a], []] [a] := by
    refine ⟨[[b], []], [[]], rfl, by decide, fun other nearer name mark passed onTrail into => ?_⟩
    -- a mark is neither of the two directories
    have apart : name ≠ a ∧ name ≠ b := by
      constructor <;> rintro rfl <;> exact absurd mark (by decide)
    simp only [List.mem_cons, List.not_mem_nil, or_false] at nearer onTrail
    rcases nearer with rfl | rfl <;> rcases onTrail with rfl | rfl | rfl | rfl <;> simp [apart] at into
  exact absurd (everywhere.mp always [a] detour) (by decide)

theorem isEntryName_toml : isEntryName "strudel-lint.toml".toList = true := rfl

/-- The name of the configuration file that comes first. -/
def tomlName : Name := ⟨"strudel-lint.toml".toList, isEntryName_toml⟩

/-- A configuration file in a directory below the current one. -/
def nested : FileSystem where
  entries := [([⟨['a'], rfl⟩, tomlName], .file .empty)]
  here := []

/-- From `a/..`, which is the directory around `a`, the root is `a`. -/
theorem root_below_start : nested.directory? ⟨"a/..".toList⟩ = some [] ∧ root nested ⟨"a/..".toList⟩ = ⟨['a']⟩ ∧
    nested.directory? ⟨['a']⟩ = some [⟨['a'], rfl⟩] ∧ ¬ RootAbove nested ⟨"a/..".toList⟩ := by
  have there : nested.directory? ⟨"a/..".toList⟩ = some [] := by decide
  have first : root nested ⟨"a/..".toList⟩ = ⟨['a']⟩ := by decide +kernel
  have seat : nested.directory? ⟨['a']⟩ = some [⟨['a'], rfl⟩] := by decide
  refine ⟨there, first, seat, ?_⟩
  rintro ⟨place, other, own, rooted, inside⟩
  cases there.symm.trans own
  rw [first] at rooted
  cases seat.symm.trans rooted
  exact absurd inside (by decide)

end PatternLint.Config
