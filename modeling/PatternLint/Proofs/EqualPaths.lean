import PatternLint.Proofs.ReportNames

/-!
# Equal paths

Paths are equal when they have the same components, however they are spelled. Equal paths lead to the same place or fail
for the same reason, except that one that is spelled like a directory is not followed to a file; so what is read at
equal paths is the same if both or none of them are those of files (`FileSystem.read_eq`). From a base that does not lead
up equal paths have the same name, unless they start at the top and the base does not (`Targets.nameFrom_eq`).
-/
namespace PatternLint

namespace FileSystem

/-! ### What a walk ends at -/

/-- What is at the end of a walk, or why there is none. -/
def arrive (files : FileSystem) (location : Location) (segments : List Text) : Except FileError (Location × Entry) :=
  match files.walk location segments with
  | .error error => .error error
  | .ok target =>
    match files.entry? target with
    | none => .error .notFound
    | some entry => .ok (target, entry)

variable {files : FileSystem} {location : Location}

theorem arrive_cons (segment : Text) (segments : List Text) :
    files.arrive location (segment :: segments) =
      match files.step location segment with
      | .error error => .error error
      | .ok next => files.arrive next segments := by
  rw [arrive, walk]
  cases files.step location segment <;> rfl

theorem arrive_of_none (nothing : files.entry? location = none) (segments : List Text) :
    files.arrive location segments = .error .notFound := by
  cases segments with
  | nil => simp only [arrive, walk, nothing]
  | cons segment segments => simp only [arrive_cons, step, nothing]

theorem arrive_cons_of_file {contents : ByteArray} (isFile : files.entry? location = some (.file contents)) (segment : Text)
    (segments : List Text) : files.arrive location (segment :: segments) = .error .notDirectory := by
  simp only [arrive_cons, step, isFile]

theorem arrive_cons_of_void {segment : Text} (above : files.entry? location = some .directory)
    (void : Path.isVoid segment = true) (segments : List Text) :
    files.arrive location (segment :: segments) = files.arrive location segments := by
  rw [arrive_cons, step_of_void above void]

/-- Pieces that are no components change nothing about the end of a walk, unless they are put behind a file. -/
theorem arrive_solid (files : FileSystem) (location : Location) (segments : List Text) :
    files.arrive location segments = files.arrive location (segments.filter (!Path.isVoid ·)) ∨
      files.arrive location segments = .error .notDirectory ∧
        ∃ target contents, files.arrive location (segments.filter (!Path.isVoid ·)) = .ok (target, .file contents) := by
  induction segments generalizing location with
  | nil => exact .inl rfl
  | cons segment segments ih =>
    cases void : Path.isVoid segment with
    | true =>
      rw [List.filter_cons_of_neg (by simp [void])]
      cases there : files.entry? location with
      | none => exact .inl (by rw [arrive_of_none there, arrive_of_none there])
      | some entry =>
        cases entry with
        | directory =>
          rw [arrive_cons_of_void there void]
          exact ih location
        | file contents =>
          -- no piece leads on from a file, so the walks part when nothing but such pieces is left
          rw [arrive_cons_of_file there]
          cases segments.filter (!Path.isVoid ·) with
          | nil => exact .inr ⟨rfl, location, contents, by simp only [arrive, walk, there]⟩
          | cons next rest => exact .inl (arrive_cons_of_file there next rest).symm
    | false =>
      rw [List.filter_cons_of_pos (by simp [void]), arrive_cons, arrive_cons]
      cases files.step location segment with
      | error error => exact .inl rfl
      | ok next => exact ih next

/-! ### What is read -/

/-- A path leads where its steps lead, unless it is spelled like a directory and they lead to a file. -/
theorem locate_eq_arrive_or (files : FileSystem) {path : Path} (clean : '\x00' ∉ path.text) (filled : path.text ≠ []) :
    files.locate path = files.arrive (files.start path) (path.steps.map (·.text)) ∨
      files.locate path = .error .notDirectory ∧
        ∃ target contents, files.arrive (files.start path) (path.steps.map (·.text)) = .ok (target, .file contents) := by
  have spelled : files.locate path = files.arrive (files.start path) path.segments := by
    rw [locate, if_neg (by simpa using clean), if_neg (by simpa using filled)]
    rfl
  rw [spelled, ← Path.solid_segments]
  exact arrive_solid files (files.start path) path.segments

theorem isFile_of_locate {path : Path} {contents : ByteArray} (found : files.locate path = .ok (location, .file contents)) :
    files.isFile path = true := isFile_iff.mpr ⟨location, contents, found⟩

theorem isFile_of_error {path : Path} {error : FileError} (failed : files.locate path = .error error) :
    files.isFile path = false := by
  rw [isFile, failed]

section
variable {a b : Path} (same : a.components = b.components)
include same

theorem empty_iff_of_components : a.text = [] ↔ b.text = [] := by
  have empty_iff (path : Path) : path.text = [] ↔ path.components = [] :=
    ⟨Path.components_of_empty, fun none => by_contra fun filled => Path.components_ne_nil_of_text filled none⟩
  rw [empty_iff, same, empty_iff]

/-- Equal paths lead to the same place or fail alike, unless one of them is that of a file and the other is not. -/
theorem locate_eq_or : files.locate a = files.locate b ∨ files.isFile a ≠ files.isFile b := by
  obtain ⟨_, dotless⟩ := (Path.components_eq_iff a b).mp same
  have steps := Path.steps_eq_of_dotless dotless
  have start : files.start a = files.start b := by rw [start, start, Path.isAbsolute_eq_of_dotless dotless]
  have nul : '\x00' ∈ a.text ↔ '\x00' ∈ b.text := by
    rw [Path.mem_text_iff a (by decide) (by decide), steps, ← Path.mem_text_iff b (by decide) (by decide)]
  have empty := empty_iff_of_components same
  by_cases clean : '\x00' ∈ a.text
  · left
    simp [locate, clean, nul.mp clean]
  by_cases filled : a.text = []
  · left
    simp [locate, filled, empty.mp filled]
  have leadsA := locate_eq_arrive_or files clean filled
  have leadsB := locate_eq_arrive_or files (mt nul.mpr clean) (mt empty.mpr filled)
  rw [start, steps] at leadsA
  rcases leadsA with leadsA | ⟨failedA, target, contents, isFile⟩
  · rcases leadsB with leadsB | ⟨failedB, target, contents, isFile⟩
    · exact .inl (leadsA.trans leadsB.symm)
    · right
      rw [isFile_of_locate (leadsA.trans isFile), isFile_of_error failedB]
      decide
  · rcases leadsB with leadsB | ⟨failedB, _⟩
    · right
      rw [isFile_of_error failedA, isFile_of_locate (leadsB.trans isFile)]
      decide
    · exact .inl (failedA.trans failedB.symm)

theorem read_eq (alike : files.isFile a = files.isFile b) : files.read a = files.read b := by
  rw [read, read, (locate_eq_or same).resolve_right (not_not_intro alike)]

/-- A path that equals that of a file is one of it as well, unless it is spelled like a directory. -/
theorem isFile_of_components (isFile : files.isFile a = true) :
    files.isFile b = true ∨ ∃ last ∈ b.segments.getLast?, Path.isVoid last = true := by
  obtain ⟨location, contents, found⟩ := isFile_iff.mp isFile
  obtain ⟨_, dotless⟩ := (Path.components_eq_iff a b).mp same
  have filled : b.text ≠ [] := mt (empty_iff_of_components same).mpr (locate_eq_ok_iff.mp found).2.1
  rcases locate_of_steps found (Path.isAbsolute_eq_of_dotless dotless).symm (Path.steps_eq_of_dotless dotless).symm filled
    with reached | ⟨_, _, closed⟩
  · exact .inl (isFile_of_locate reached)
  · exact .inr closed

end
end FileSystem

/-! ### Names -/

namespace Path

/-- From a base that does not lead up there is a way to every path. -/
theorem exists_stepsFrom (started : Bool) (path : List Component) {base : List Component} (descending : .up ∉ base) :
    ∃ steps, stepsFrom started path base = some steps := by
  fun_induction stepsFrom started path base with
  | case1 _ path => exact ⟨path, rfl⟩
  | case2 _ _ base ih =>
    obtain ⟨steps, found⟩ := ih fun member => descending (List.mem_cons_of_mem _ member)
    exact ⟨_, by rw [found, Option.map_some]⟩
  | case3 _ _ _ _ base _ ih => exact ih fun member => descending (List.mem_cons_of_mem _ member)
  | case4 _ first _ base _ ih =>
    obtain ⟨steps, found⟩ := ih fun member => descending (List.mem_cons_of_mem _ member)
    exact ⟨_, by rw [found, Option.map_some]⟩
  | case5 => exact absurd List.mem_cons_self descending
  | case6 => exact ⟨_, rfl⟩

end Path

namespace Targets

/-- From a base that does not lead up equal paths have the same name, unless they start at the top and the base does
    not, as they are named by their spelling then. -/
theorem nameFrom_eq {base a b : Path} (descending : .up ∉ base.components) (same : a.components = b.components)
    (side : a.isAbsolute = base.isAbsolute ∨ a = b) : nameFrom base a = nameFrom base b := by
  rcases side with side | rfl
  · have alike : b.isAbsolute = base.isAbsolute := by
      rw [← Path.isAbsolute_eq_of_dotless ((Path.components_eq_iff a b).mp same).2, side]
    obtain ⟨steps, way⟩ := Path.exists_stepsFrom false b.components descending
    rw [nameFrom, nameFrom, Path.relativeTo?, Path.relativeTo?, if_pos side, if_pos alike, same, way]
    rfl
  · rfl

theorem entry_eq {files : FileSystem} {base a b : Path} (named : nameFrom base a = nameFrom base b)
    (read : files.read a = files.read b) : entry files base a = entry files base b := by
  rw [entry, entry, named, read]

end Targets
end PatternLint
