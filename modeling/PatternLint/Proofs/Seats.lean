import PatternLint.Proofs.Spellings

/-!
# Names behind paths

A name behind a path is looked up in the directory that the steps of the path lead to, its seat (`seat?_eq_some_iff`,
`locate_join_iff`). Every path to a directory has one (`seat?_of_directory?`), and the empty path has one too, though it
leads nowhere itself: the current directory.
-/
namespace PatternLint.FileSystem

/-- The directory that names behind a path are looked up in. -/
def seat? (files : FileSystem) (path : Path) : Option Location :=
  files.directory? (if path.text.isEmpty then ⟨['.']⟩ else path)

variable {files : FileSystem} {path : Path} {location seat : Location} {entry : Entry} {name : Name}

/-- A path leads to a directory when its steps do. -/
theorem directory?_eq_some_iff_walk (filled : path.text ≠ []) : files.directory? path = some location ↔
    '\x00' ∉ path.text ∧ files.walk (files.start path) (path.steps.map (·.text)) = .ok location ∧
      files.entry? location = some .directory := by
  rw [directory?_eq_some_iff, locate_eq_ok_iff, ← Path.solid_segments]
  constructor
  · rintro ⟨clean, _, walked, there⟩
    exact ⟨clean, walk_solid walked, there⟩
  · rintro ⟨clean, solid, there⟩
    rcases walk_of_solid solid there with walked | ⟨_, ⟨contents, isFile⟩, _⟩
    · exact ⟨clean, filled, walked, there⟩
    · cases isFile

theorem seat?_of_ne_nil (files : FileSystem) (filled : path.text ≠ []) : files.seat? path = files.directory? path := by
  rw [seat?, if_neg (by simpa using filled)]

theorem seat?_of_directory? (there : files.directory? path = some location) : files.seat? path = some location := by
  rw [seat?_of_ne_nil files (Glob.text_ne_nil_of_directory? there), there]

/-- The seat of a path is the directory that its steps lead to. -/
theorem seat?_eq_some_iff : files.seat? path = some location ↔
    '\x00' ∉ path.text ∧ files.walk (files.start path) (path.steps.map (·.text)) = .ok location ∧
      files.entry? location = some .directory := by
  by_cases empty : path.text = []
  · obtain ⟨text⟩ := path
    cases empty
    rw [seat?, if_pos List.isEmpty_nil, directory?_eq_some_iff_walk (by decide)]
    simp [start, Path.isAbsolute, Path.steps, Path.segments, Path.component?, Path.isVoid, Text.splitOn, Text.onFirst]
  · rw [seat?_of_ne_nil files empty, directory?_eq_some_iff_walk empty]

/-- A name leads from a directory to what is under it there. -/
theorem walk_concat_name_iff {segments : List Text} {next : Location} :
    files.walk location (segments ++ [name.text]) = .ok next ↔ ∃ seat, files.walk location segments = .ok seat ∧
      files.entry? seat = some .directory ∧ next = seat ++ [name] := by
  rw [walk_append_eq_ok_iff]
  refine exists_congr fun seat => and_congr_right fun _ => ?_
  rw [walk_cons_eq_ok_iff]
  constructor
  · rintro ⟨_, stepped, stays⟩
    cases stays
    have above := entry?_of_step stepped
    cases (step_name above name).symm.trans stepped
    exact ⟨above, rfl⟩
  · rintro ⟨above, rfl⟩
    exact ⟨_, step_name above name, rfl⟩

/-- What is found at a name behind a path is what lies under this name in the seat of the path. -/
theorem locate_join_iff : files.locate (path.join ⟨name.text⟩) = .ok (location, entry) ↔
    ∃ seat, files.seat? path = some seat ∧ location = seat ++ [name] ∧ files.entry? location = some entry := by
  have steps := Glob.steps_join_of_free name.free path
  have solid := Path.solid_segments (path.join ⟨name.text⟩)
  have nul : '\x00' ∈ (path.join ⟨name.text⟩).text ↔ '\x00' ∈ path.text := by
    rw [Path.mem_text_iff _ (by decide) (by decide), Path.mem_text_iff path (by decide) (by decide), steps,
      name.component?]
    simp only [Option.toList_some, List.mem_append, List.mem_singleton, or_and_right, exists_or, exists_eq_left]
    exact or_iff_left name.clean
  have origin : files.start (path.join ⟨name.text⟩) = files.start path := by
    rw [start, start, Glob.isAbsolute_join_of_free name.free]
  rw [steps, name.component?, Option.toList_some, List.map_append] at solid
  rw [locate_eq_ok_iff, nul, origin]
  simp only [seat?_eq_some_iff]
  constructor
  · rintro ⟨clean, _, walked, there⟩
    have onward := walk_solid walked
    rw [solid] at onward
    obtain ⟨seat, seated, above, rfl⟩ := walk_concat_name_iff.mp onward
    exact ⟨seat, ⟨clean, seated, above⟩, rfl, there⟩
  · rintro ⟨seat, ⟨clean, walked, above⟩, rfl, there⟩
    refine ⟨clean, ?_, ?_, there⟩
    · by_cases empty : path.text = []
      · rw [Path.join_of_empty empty]
        exact name.ne_nil
      · exact Path.text_join_ne_nil empty _
    · refine walk_of_open ?_ there fun last ends => ?_
      · rw [solid]
        exact walk_concat_name_iff.mpr ⟨seat, walked, above, rfl⟩
      · rw [Glob.getLast?_segments_join_of_free name.free] at ends
        cases ends
        exact name.solid

theorem locate_join_of_seat? (seated : files.seat? path = some seat) :
    files.locate (path.join ⟨name.text⟩) = .ok (location, entry) ↔
      location = seat ++ [name] ∧ files.entry? location = some entry := by
  rw [locate_join_iff, seated]
  simp

theorem exists?_iff : files.exists? path = true ↔ ∃ location entry, files.locate path = .ok (location, entry) := by
  rw [exists?]
  cases files.locate path with
  | error error => simp [Except.toOption]
  | ok found => exact ⟨fun _ => ⟨found.1, found.2, rfl⟩, fun _ => rfl⟩

theorem exists?_join_iff : files.exists? (path.join ⟨name.text⟩) = true ↔
    ∃ seat, files.seat? path = some seat ∧ files.holds (seat ++ [name]) = true := by
  simp only [exists?_iff, locate_join_iff]
  constructor
  · rintro ⟨_, entry, seat, seated, rfl, there⟩
    exact ⟨seat, seated, holds_of_eq_some there⟩
  · rintro ⟨seat, seated, there⟩
    obtain ⟨entry, there⟩ := exists_entry_of_holds there
    exact ⟨_, entry, seat, seated, rfl, there⟩

end PatternLint.FileSystem
