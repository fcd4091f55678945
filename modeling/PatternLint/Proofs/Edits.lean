import PatternLint.Proofs.Targets

/-!
# Another text in a file

Which files there are is not changed when one of them gets other contents (`FileSystem.edit`): paths lead to the same
places, patterns match the same paths, and the same targets are collected. All that changes is what is read from the file
itself (`Targets.entry_edit`).
-/
namespace PatternLint

namespace FileSystem

/-- An entry after the file at a place has got other contents. -/
def editEntry (place : Location) (contents : ByteArray) (location : Location) : Entry → Entry
  | .file old => .file (if location = place then contents else old)
  | .directory => .directory

/-- The file system after the file at a place, if there is one, has got other contents. -/
def edit (files : FileSystem) (place : Location) (contents : ByteArray) : FileSystem :=
  { files with entries := files.entries.map fun (location, entry) =>
      (location, editEntry place contents location entry) }

variable (files : FileSystem) (place : Location) (contents : ByteArray)

/-! ### What is there -/

theorem locations_edit : (files.edit place contents).locations = files.locations := by
  rw [locations, locations, edit, List.flatMap_map]

theorem below_edit (top : Location) : (files.edit place contents).below top = files.below top := by
  rw [below, below, locations_edit]

theorem names_edit (directory : Location) : (files.edit place contents).names directory = files.names directory := by
  rw [names, names, below_edit]

theorem entry?_edit (location : Location) : FileSystem.entry? (files.edit place contents) location =
    editEntry place contents location <$> files.entry? location := by
  have above : ((files.edit place contents).entries.any fun (other, _) => isBelow location other) =
      files.entries.any fun (other, _) => isBelow location other := by
    rw [edit, List.any_map]
    rfl
  unfold entry?
  rw [Option.map_eq_map, above]
  by_cases inner : (location.isEmpty || files.entries.any fun (other, _) => isBelow location other) = true
  · rw [if_pos inner, if_pos inner]
    rfl
  · rw [if_neg inner, if_neg inner, edit, List.find?_map, Option.map_map, Option.map_map]
    refine Option.map_congr fun listed found => ?_
    have here : listed.1 = location := by simpa using List.find?_some found
    simp [here]

/-! ### Where paths lead -/

theorem step_edit (location : Location) (segment : Text) :
    (files.edit place contents).step location segment = files.step location segment := by
  rw [step, step, entry?_edit]
  cases files.entry? location with
  | none => rfl
  | some entry => cases entry <;> rfl

theorem walk_edit (location : Location) (segments : List Text) :
    (files.edit place contents).walk location segments = files.walk location segments := by
  induction segments generalizing location with
  | nil => rfl
  | cons segment segments ih =>
    rw [walk, walk, step_edit]
    cases files.step location segment with
    | error error => rfl
    | ok next => exact ih next

theorem locate_edit (path : Path) : (files.edit place contents).locate path =
    (files.locate path).map fun (location, entry) => (location, editEntry place contents location entry) := by
  have here : (files.edit place contents).here = files.here := rfl
  rw [locate, locate, here, walk_edit]
  split_ifs
  · rfl
  · rfl
  all_goals
    cases files.walk _ path.segments with
    | error error => rfl
    | ok location =>
      dsimp only
      rw [entry?_edit]
      cases files.entry? location <;> rfl

theorem isFile_edit : (files.edit place contents).isFile = files.isFile := by
  funext path
  rw [isFile, isFile, locate_edit]
  cases files.locate path with
  | error error => rfl
  | ok found =>
    obtain ⟨location, entry⟩ := found
    cases entry <;> rfl

theorem exists?_edit (path : Path) : (files.edit place contents).exists? path = files.exists? path := by
  rw [exists?, exists?, locate_edit]
  cases files.locate path <;> rfl

theorem directory?_edit (path : Path) : (files.edit place contents).directory? path = files.directory? path := by
  rw [directory?, directory?, locate_edit]
  cases files.locate path with
  | error error => rfl
  | ok found =>
    obtain ⟨location, entry⟩ := found
    cases entry <;> rfl

end FileSystem

/-! ### What matches and what is collected -/

variable (files : FileSystem) (place : Location) (contents : ByteArray)

theorem Glob.expand_edit (pieces : List Piece) :
    (∀ directory, expand (files.edit place contents) pieces directory = expand files pieces directory) ∧
    ∀ way directory, expand.expandEntry (files.edit place contents) way directory pieces =
      expand.expandEntry files way directory pieces := by
  induction pieces with
  | nil =>
    refine ⟨fun directory => rfl, fun way directory => ?_⟩
    simp only [expand.expandEntry, FileSystem.directory?_edit]
  | cons piece pieces ih =>
    obtain ⟨further, entries⟩ := ih
    cases piece with
    | literal text =>
      have own (directory : Path) : expand (files.edit place contents) (.literal text :: pieces) directory =
          expand files (.literal text :: pieces) directory := by
        simp only [expand, FileSystem.directory?_edit, FileSystem.exists?_edit, further]
      exact ⟨own, fun way directory => by simp only [expand.expandEntry, further]⟩
    | wildcard tokens =>
      have own (directory : Path) : expand (files.edit place contents) (.wildcard tokens :: pieces) directory =
          expand files (.wildcard tokens :: pieces) directory := by
        simp only [expand, FileSystem.directory?_edit, FileSystem.names_edit, further]
      exact ⟨own, fun way directory => by simp only [expand.expandEntry, further]⟩
    | directories =>
      refine ⟨fun directory => ?_, fun way directory => ?_⟩
      · simp only [expand, FileSystem.directory?_edit, FileSystem.below_edit, entries]
      · simp only [expand.expandEntry, entries]

theorem Glob.files_edit (pattern : Pattern) : pattern.files (files.edit place contents) = pattern.files files := by
  rw [Pattern.files, Pattern.files, FileSystem.isFile_edit, (expand_edit files place contents pattern.pieces).1]

namespace Targets

theorem ofPatterns_edit (base : Path) (patterns : List Text) :
    ofPatterns (files.edit place contents) base patterns = ofPatterns files base patterns := by
  have one (pattern : Text) : ofPattern (files.edit place contents) base pattern = ofPattern files base pattern := by
    simp only [ofPattern, Glob.files_edit]
  induction patterns with
  | nil => rfl
  | cons pattern patterns ih => rw [ofPatterns, ofPatterns, one, ih]

/-- The same targets are collected. -/
theorem collect_edit (base : Path) (patterns : List Text) :
    collect (files.edit place contents) base patterns = collect files base patterns := by
  rw [collect, collect, ofPatterns_edit]

/-- A target that does not lead to the file has the entry that it had. -/
theorem entry_edit (base : Path) {target : Path}
    (elsewhere : ∀ old, files.locate target ≠ .ok (place, .file old)) :
    entry (files.edit place contents) base target = entry files base target := by
  have read : (files.edit place contents).read target = files.read target := by
    rw [FileSystem.read, FileSystem.read, FileSystem.locate_edit]
    cases located : files.locate target with
    | error error => rfl
    | ok found =>
      obtain ⟨location, entry⟩ := found
      cases entry with
      | directory => rfl
      | file old =>
        have other : location ≠ place := by
          rintro rfl
          exact elsewhere old located
        simp [Except.map, FileSystem.editEntry, other]
  rw [entry, entry, read]

end Targets
end PatternLint
