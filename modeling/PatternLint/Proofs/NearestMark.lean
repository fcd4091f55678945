import Mathlib.Data.List.DropRight
import PatternLint.Proofs.Configuration
import PatternLint.Proofs.Trails

/-!
# The nearest mark

What is above a path is told by its spelling: each parent has one component less, so their chain ends
(`Path.exists_above_iff`). The root is the nearest path of this chain with a mark, and the root of the root is itself. A
repository that is nearer than all configuration files hides them, and then there is none at the root
(`Config.nearest_exact`).
-/
namespace PatternLint

namespace Path

variable {path parent : Path}

/-! ### Parents and their components -/

/-- The parent of a path with steps starts with a dot if the path does. -/
theorem startsHere_of_parent? (relative : path.isAbsolute = false) (above : path.parent? = some parent)
    (some_step : path.steps ≠ []) : parent.startsHere = path.startsHere := by
  obtain ⟨first, rest, pieces⟩ := List.exists_cons_of_ne_nil path.segments_ne_nil
  have free : ∀ segment ∈ first :: rest, '/' ∉ segment := fun segment member =>
    not_mem_of_mem_segments (pieces ▸ member)
  rw [steps, pieces] at some_step
  rw [parent?, pieces] at above
  dsimp only at above
  rw [if_neg (by simp [relative])] at above
  rw [startsHere, startsHere, pieces]
  split at above
  · next here =>
    cases here
    rw [List.filterMap_cons_none rfl] at some_step
    cases dropped : dropLastComponent? rest with
    | none => exact absurd (filterMap_eq_nil_of_dropLastComponent? dropped) some_step
    | some start =>
      obtain ⟨own, below⟩ := List.forall_mem_cons.mp free
      rw [dropped, Option.some.injEq, ofSegments, if_neg (by simp)] at above
      rw [← above, segments_intercalate (List.cons_ne_nil _ _)
        (List.forall_mem_cons.mpr ⟨own, free_of_dropLastComponent? dropped below⟩)]
      rfl
  · next other =>
    obtain ⟨start, dropped, rfl⟩ := Option.map_eq_some_iff.mp above
    cases start with
    | nil => exact (decide_eq_false (by simpa using other)).symm
    | cons second start =>
      obtain ⟨more, whole, _⟩ := dropLastComponent?_eq_some dropped
      rw [segments_intercalate (List.cons_ne_nil _ _) (free_of_dropLastComponent? dropped free), whole]
      rfl

theorem mark_of_parent? (above : path.parent? = some parent) (side : parent.isAbsolute = path.isAbsolute)
    (some_step : path.steps ≠ []) : parent.mark = path.mark := by
  rw [mark, mark, side]
  split
  · rfl
  · next relative => rw [startsHere_of_parent? (Bool.not_eq_true _ ▸ relative) above some_step]

/-- Without steps only a path of dots has a parent, the empty path. -/
theorem parent?_of_steps_eq_nil (empty : path.steps = []) :
    path.parent? = if path.startsHere then some ⟨[]⟩ else none := by
  obtain ⟨first, rest, pieces⟩ := List.exists_cons_of_ne_nil path.segments_ne_nil
  rw [steps, pieces] at empty
  have later : rest.filterMap component? = [] := by
    rw [← toList_component?_append] at empty
    exact (List.append_eq_nil_iff.mp empty).2
  rw [parent?, startsHere, pieces]
  dsimp only
  split
  · next absolute =>
    have top := head?_segments_of_isAbsolute absolute
    rw [pieces] at top
    cases top
    rw [dropLastComponent?_eq_none later]
    rfl
  · split
    · next here =>
      cases here
      rw [dropLastComponent?_eq_none later]
      rfl
    · next other =>
      rw [dropLastComponent?_eq_none empty]
      simp [other]

/-- A path has a parent with all its components but the last, or it has none but the top. -/
theorem parent?_components (path : Path) :
    (path.parent? = none ∧ path.components.filter (· ≠ .root) = []) ∨
      ∃ parent last, path.parent? = some parent ∧ last ≠ .root ∧ path.components = parent.components ++ [last] := by
  by_cases empty : path.steps = []
  · have upward := parent?_of_steps_eq_nil empty
    have own : path.components = path.mark := by rw [components_eq, empty, List.append_nil]
    rw [own, mark]
    cases here : path.startsHere with
    | false =>
      rw [here] at upward
      refine .inl ⟨upward, ?_⟩
      cases path.isAbsolute <;> rfl
    | true =>
      rw [here] at upward
      rw [isAbsolute_of_startsHere here]
      exact .inr ⟨⟨[]⟩, .here, upward, by decide, rfl⟩
  · obtain ⟨_, stepless⟩ | ⟨parent, above, dropped, side⟩ := path.parent?_cases
    · exact absurd stepless empty
    · refine .inr ⟨parent, path.steps.getLast empty, above, ?_, ?_⟩
      · have isStep := isStep_of_mem_steps (List.getLast_mem empty)
        intro top
        rw [top] at isStep
        cases isStep
      · rw [components_eq, components_eq, mark_of_parent? above side empty, dropped, List.append_assoc,
          List.dropLast_concat_getLast]

/-! ### The chain of parents -/

/-- The path that many parents above, if there are so many. -/
def above (path : Path) : Nat → Option Path
  | 0 => some path
  | n + 1 => (path.above n).bind parent?

theorem above_succ (path : Path) (n : Nat) : path.above (n + 1) = path.parent?.bind (above · n) := by
  induction n with
  | zero => exact (Option.bind_fun_some path.parent?).symm
  | succ n ih =>
    rw [above, ih]
    cases path.parent? <;> rfl

/-- The paths that are looked at are those of the chain. -/
theorem getElem?_ancestors (path : Path) (n : Nat) : path.ancestors[n]? = path.above n := by
  induction path using ancestors.induct generalizing n with
  | case1 path top =>
    rw [ancestors_of_parent?_eq_none top]
    cases n with
    | zero => rfl
    | succ n =>
      rw [above_succ, top]
      rfl
  | case2 path parent next ih =>
    rw [ancestors_of_parent? next]
    cases n with
    | zero => rfl
    | succ n =>
      rw [above_succ, next]
      exact ih n

theorem length_ancestors (path : Path) :
    path.ancestors.length = (path.components.filter (· ≠ .root)).length + 1 := by
  induction path using ancestors.induct with
  | case1 path top =>
    obtain ⟨_, none⟩ | ⟨_, _, next, _⟩ := path.parent?_components
    · rw [ancestors_of_parent?_eq_none top, none]
      rfl
    · cases top.symm.trans next
  | case2 path parent next ih =>
    obtain ⟨top, _⟩ | ⟨_, last, own, some_step, components⟩ := path.parent?_components
    · cases top.symm.trans next
    · cases next.symm.trans own
      rw [ancestors_of_parent? next, List.length_cons, ih, components]
      simp [some_step]

/-- The chain goes on as long as there are components other than the top. -/
theorem exists_above_iff (path : Path) (n : Nat) :
    (∃ other, path.above n = some other) ↔ n ≤ (path.components.filter (· ≠ .root)).length := by
  rw [← Option.isSome_iff_exists, ← getElem?_ancestors, isSome_getElem?, length_ancestors, Nat.lt_succ_iff]

theorem components_above {path other : Path} {n : Nat} (onChain : path.above n = some other) :
    other.components = path.components.rdrop n := by
  induction n generalizing path with
  | zero =>
    cases onChain
    rw [List.rdrop_zero]
  | succ n ih =>
    rw [above_succ] at onChain
    obtain ⟨parent, next, later⟩ := Option.bind_eq_some_iff.mp onChain
    obtain ⟨top, _⟩ | ⟨_, last, own, _, components⟩ := path.parent?_components
    · cases top.symm.trans next
    · cases next.symm.trans own
      rw [ih later, components, List.rdrop_concat_succ]

end Path

namespace Config

variable {files : FileSystem} {start directory : Path}

/-! ### Marks -/

/-- Whether a directory holds a configuration file. -/
def HoldsFile (files : FileSystem) (directory : Path) : Prop :=
  ∃ named ∈ fileNames, files.exists? (directory.join ⟨named.1⟩) = true

instance (files : FileSystem) : DecidablePred (HoldsFile files) := fun _ =>
  inferInstanceAs (Decidable (∃ named ∈ fileNames, _))

def HoldsRepository (files : FileSystem) (directory : Path) : Prop :=
  files.exists? (directory.join ⟨".git".toList⟩) = true

instance (files : FileSystem) : DecidablePred (HoldsRepository files) := fun _ => inferInstanceAs (Decidable (_ = true))

theorem isMarked_iff : isMarked files directory = true ↔ HoldsFile files directory ∨ HoldsRepository files directory := by
  simp [isMarked, marks, HoldsFile, HoldsRepository]

theorem not_isMarked_iff :
    isMarked files directory = false ↔ ¬ HoldsFile files directory ∧ ¬ HoldsRepository files directory := by
  rw [← Bool.not_eq_true, isMarked_iff, not_or]

/-- Whether a path of the chain above a start has a mark and none that is nearer has one. -/
def IsNearest (files : FileSystem) (start directory : Path) : Prop :=
  ∃ n, start.above n = some directory ∧ (HoldsFile files directory ∨ HoldsRepository files directory) ∧
    ∀ m < n, ∀ nearer, start.above m = some nearer → ¬ HoldsFile files nearer ∧ ¬ HoldsRepository files nearer

/-! ### The root -/

theorem find?_ancestors_eq_some_iff :
    start.ancestors.find? (isMarked files) = some directory ↔ IsNearest files start directory := by
  simp only [IsNearest, ← isMarked_iff, ← not_isMarked_iff, ← Path.getElem?_ancestors]
  rw [List.find?_eq_some_iff_getElem]
  constructor
  · rintro ⟨marked, n, inside, own, earlier⟩
    refine ⟨n, ?_, marked, fun m before nearer onChain => ?_⟩
    · rw [List.getElem?_eq_getElem inside, own]
    · obtain ⟨_, rfl⟩ := List.getElem?_eq_some_iff.mp onChain
      simpa using earlier m before
  · rintro ⟨n, onChain, marked, earlier⟩
    obtain ⟨inside, own⟩ := List.getElem?_eq_some_iff.mp onChain
    refine ⟨marked, n, inside, own, fun m before => ?_⟩
    have unmarked := earlier m before _ (List.getElem?_eq_getElem (before.trans inside))
    simpa using unmarked

theorem find?_ancestors_eq_none_iff : start.ancestors.find? (isMarked files) = none ↔
    ∀ n above, start.above n = some above → ¬ HoldsFile files above ∧ ¬ HoldsRepository files above := by
  simp only [← not_isMarked_iff, ← Path.getElem?_ancestors, List.find?_eq_none, List.mem_iff_getElem?]
  constructor
  · intro unmarked n above onChain
    simpa using unmarked above ⟨n, onChain⟩
  · rintro unmarked above ⟨n, onChain⟩
    simpa using unmarked n above onChain

/-- The root is the nearest path with a mark, or the start if no path has one. -/
theorem root_cases (files : FileSystem) (start : Path) : IsNearest files start (root files start) ∨
    (∀ n above, start.above n = some above → ¬ HoldsFile files above ∧ ¬ HoldsRepository files above) ∧
      root files start = start := by
  rw [root]
  cases found : start.ancestors.find? (isMarked files) with
  | none => exact .inr ⟨find?_ancestors_eq_none_iff.mp found, rfl⟩
  | some directory => exact .inl (find?_ancestors_eq_some_iff.mp found)

theorem root_of_isNearest (nearest : IsNearest files start directory) : root files start = directory := by
  rw [root, find?_ancestors_eq_some_iff.mpr nearest, Option.getD_some]

/-- A path with a mark is its own root. -/
theorem root_of_holds (marked : HoldsFile files start ∨ HoldsRepository files start) : root files start = start :=
  root_of_isNearest ⟨0, rfl, marked, fun m before => absurd before m.not_lt_zero⟩

theorem root_root (files : FileSystem) (start : Path) : root files (root files start) = root files start := by
  rcases root_cases files start with ⟨_, _, marked, _⟩ | ⟨_, same⟩
  · exact root_of_holds marked
  · rw [same, same]

/-- The root is not above a path with a mark. -/
theorem exists_le_of_holds {n : Nat} (onChain : start.above n = some directory)
    (marked : HoldsFile files directory ∨ HoldsRepository files directory) :
    ∃ m ≤ n, start.above m = some (root files start) := by
  rcases root_cases files start with ⟨m, own, _, earlier⟩ | ⟨unmarked, _⟩
  · refine ⟨m, ?_, own⟩
    by_contra further
    have bare := earlier n (Nat.lt_of_not_le further) directory onChain
    exact marked.elim bare.1 bare.2
  · have bare := unmarked n directory onChain
    exact (marked.elim bare.1 bare.2).elim

theorem load_of_not_holdsFile (bare : ¬ HoldsFile files directory) : load files directory = .ok none := by
  refine load_of_absent fun named listed => ?_
  by_contra there
  exact bare ⟨named, listed, by simpa using there⟩

/-- The chain above a start ends: each path on it has one component less, until none is left but the top. The root is the
    nearest path of the chain that holds a configuration file or a repository, or the start if none does, and it is its own
    root. So it is not above a repository, and if no path up to the repository holds a configuration file, none is loaded,
    whatever the paths above it hold. -/
theorem nearest_exact (files : FileSystem) (start : Path) :
    (∀ n, (∃ above, start.above n = some above) ↔ n ≤ (start.components.filter (· ≠ .root)).length) ∧
    (∀ n above, start.above n = some above → above.components = start.components.rdrop n) ∧
    (IsNearest files start (root files start) ∨
      (∀ n above, start.above n = some above → ¬ HoldsFile files above ∧ ¬ HoldsRepository files above) ∧
        root files start = start) ∧
    root files (root files start) = root files start ∧
    (∀ n directory, start.above n = some directory → HoldsRepository files directory →
      (∃ m ≤ n, start.above m = some (root files start)) ∧
      ((∀ m ≤ n, ∀ nearer, start.above m = some nearer → ¬ HoldsFile files nearer) →
        load files (root files start) = .ok none)) := by
  refine ⟨start.exists_above_iff, fun n above => Path.components_above, root_cases files start, root_root files start,
    fun n directory onChain repository => ?_⟩
  obtain ⟨m, near, own⟩ := exists_le_of_holds onChain (.inr repository)
  exact ⟨⟨m, near, own⟩, fun bare => load_of_not_holdsFile (bare m near _ own)⟩

theorem isEntryName_songs : isEntryName "songs".toList = true := rfl

/-- A configuration file above a repository. -/
def hidden : FileSystem where
  entries := [([tomlName], .file .empty), ([⟨"songs".toList, isEntryName_songs⟩, repository], .directory)]
  here := []

/-- From below the repository, in a directory that is not there, the file above it is not found. -/
theorem nearest_exact_hidden : HoldsFile hidden ⟨[]⟩ ∧ Path.above ⟨"songs/./live/".toList⟩ 2 = some ⟨[]⟩ ∧
    load hidden (root hidden ⟨"songs/./live/".toList⟩) = .ok none := by
  obtain ⟨-, -, -, -, hides⟩ := nearest_exact hidden ⟨"songs/./live/".toList⟩
  have chain : Path.above ⟨"songs/./live/".toList⟩ 1 = some ⟨"songs".toList⟩ := by cbv
  refine ⟨by decide, by cbv, (hides 1 _ chain (by decide)).2 fun m near nearer onChain => ?_⟩
  obtain rfl | rfl : m = 0 ∨ m = 1 := by omega
  · cases onChain
    decide
  · cases chain.symm.trans onChain
    decide

end Config
end PatternLint
