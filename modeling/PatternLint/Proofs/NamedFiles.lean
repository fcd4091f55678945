import PatternLint.Proofs.ReportNames
import PatternLint.Proofs.Spellings
import PatternLint.Session

/-!
# Files named on the command line

An argument that holds a wildcard is a pattern even if there is a file of that name. The file is reported if the
argument matches its own path, as it does without sets and double stars; otherwise it is left out (`reported_exact`).
-/
namespace PatternLint

/-- Whether a pattern below the current directory spells a path of the same steps as one that is that of a file. -/
structure Glob.Matches (pattern path : Path) (pieces : List Piece) (segments : List Text) : Prop where
  read : piecesOf pattern.openSegments = .ok pieces
  isOpen : pattern.segments.getLast? ≠ some []
  spells : Spells pieces segments
  same : segments.filterMap Path.component? = path.steps
  filled : Filled segments
  solid : ∀ last ∈ segments.getLast?, Path.isVoid last = false

/-- Whether an argument names a file: it is the path of the file, or a pattern that spells it. -/
def Names (argument : Text) (path : Path) : Prop :=
  if Glob.isPattern argument then ∃ pieces segments, Glob.Matches ⟨argument⟩ path pieces segments
  else Path.dotless ⟨argument⟩ = path.dotless

namespace FileSystem

variable {files : FileSystem} {path : Path}

/-- What is found from the current directory shows that this is a directory. -/
theorem locate_here (relative : path.isAbsolute = false) {found : Location × Entry}
    (located : files.locate path = .ok found) : files.locate ⟨['.']⟩ = .ok (files.here, .directory) := by
  obtain ⟨location, entry⟩ := found
  obtain ⟨_, _, walked, _⟩ := locate_eq_ok_iff.mp located
  obtain ⟨first, rest, pieces⟩ := List.exists_cons_of_ne_nil path.segments_ne_nil
  rw [pieces, start, relative, if_neg Bool.false_ne_true] at walked
  obtain ⟨next, stepped, _⟩ := walk_cons_eq_ok_iff.mp walked
  exact locate_dot (entry?_of_step stepped)

/-- Pieces of the same steps as the path of a file lead to it if they do not end like a directory. -/
theorem walk_of_locate {location : Location} {contents : ByteArray}
    (located : files.locate path = .ok (location, .file contents)) {segments : List Text}
    (same : segments.filterMap Path.component? = path.steps)
    (solid : ∀ last ∈ segments.getLast?, Path.isVoid last = false) : files.walk (files.start path) segments = .ok location := by
  obtain ⟨_, _, walked, there⟩ := locate_eq_ok_iff.mp located
  have own := walk_solid walked
  rw [Path.solid_segments, ← same, ← Path.filter_solid] at own
  exact walk_of_open own there solid

end FileSystem

namespace Targets

variable {files : FileSystem} {path : Path} {location : Location} {contents : ByteArray}

/-- A pattern without sets, double stars and empty pieces matches the file of its own path. -/
theorem matches_self (located : files.locate path = .ok (location, .file contents))
    {pieces : List Glob.Piece} (read : Glob.piecesOf path.openSegments = .ok pieces)
    (unset : '[' ∉ path.text) (solid : [] ∉ path.segments) (single : ['*', '*'] ∉ path.segments) :
    Glob.Matches path path pieces path.segments := by
  have isOpen : path.segments.getLast? ≠ some [] := fun last => solid (List.mem_of_getLast? last)
  rw [Path.openSegments, if_neg isOpen] at read
  obtain ⟨clean, _⟩ := FileSystem.locate_eq_ok_iff.mp located
  have absent {c : Char} (other : c ≠ '/') (away : c ∉ path.text) : ∀ segment ∈ path.segments, c ∉ segment :=
    fun segment member inside => away ((Text.exists_mem_splitOn_iff other path.text).mp ⟨segment, member, inside⟩)
  have free (segment : Text) (member : segment ∈ path.segments) : '/' ∉ segment := Path.not_mem_of_mem_segments member
  refine ⟨by rwa [Path.openSegments, if_neg isOpen], isOpen,
    Glob.spells_self read (absent (by decide) unset) single free fun segment member wild => ?_, rfl,
    Glob.filled_of_not_mem solid, FileSystem.solid_of_isFile (FileSystem.isFile_iff.mpr ⟨location, contents, located⟩)⟩
  rw [isEntryName_iff]
  refine ⟨fun empty => solid (empty ▸ member), free segment member, absent (by decide) clean segment member, ?_, ?_⟩
  all_goals
    rintro rfl
    cases wild

section
variable (relative : path.isAbsolute = false) (located : files.locate path = .ok (location, .file contents))
include relative located

/-- A pattern below the current directory finds a file just when it matches its path. -/
theorem exists_found_iff {pattern : Path} (below : pattern.isAbsolute = false) {glob : Glob.Pattern}
    (parsed : Glob.Pattern.ofText (Path.join ⟨['.']⟩ pattern).text = .ok glob) :
    (∃ other ∈ glob.files files, other.dotless = path.dotless) ↔
      ∃ pieces segments, Glob.Matches pattern path pieces segments := by
  have filled : (⟨['.']⟩ : Path).text ≠ [] := by simp
  have here : Glob.piecesOf (Path.openSegments ⟨['.']⟩) = .ok [.literal ['.']] := by cbv
  constructor
  · rintro ⟨other, found, same⟩
    obtain ⟨lead, rest, inBase, inPattern, free, leads⟩ := leads_of_found below filled rfl parsed found
    cases here.symm.trans inBase
    obtain ⟨filed, isFile, _⟩ := (Glob.mem_files_iff files glob other).mp found
    obtain ⟨_, spells, steps, solid, ends, _⟩ := leads.exists_reaches free isFile
    cases spells with
    | @literal _ _ segments spells =>
      refine ⟨rest, segments, inPattern, (Glob.onlyDirectories_join_iff below filled parsed).mp filed, spells, ?_,
        (Glob.filled_dot_iff segments).mp (solid (by decide)), ?_⟩
      · rw [← Path.steps_eq_of_dotless same, steps]
        rfl
      · cases segments with
        | nil => cases ends ['.'] rfl
        | cons segment segments => rwa [List.getLast?_cons_cons] at ends
  · rintro ⟨pieces, segments, inPattern, isOpen, spells, same, solid, closes⟩
    have ground : (Path.join ⟨['.']⟩ pattern).isAbsolute = false := Path.isAbsolute_join below filled
    have found := FileSystem.locate_here relative located
    have onward := FileSystem.walk_of_locate located same closes
    rw [FileSystem.start, relative, if_neg Bool.false_ne_true] at onward
    have walked : files.walk files.here (['.'] :: segments) = .ok location :=
      FileSystem.walk_cons_eq_ok_iff.mpr
        ⟨files.here, FileSystem.step_of_void (FileSystem.entry?_of_locate found) rfl, onward⟩
    have spelled : Glob.Spells (.literal ['.'] :: pieces) (['.'] :: segments) := .literal spells
    obtain ⟨other, member, steps⟩ := Glob.exists_found_of_spells below filled rfl parsed isOpen here inPattern spelled
      ((Glob.filled_dot_iff segments).mpr solid) found walked (FileSystem.entry?_of_locate located)
    refine ⟨other, member, ?_⟩
    rw [Path.dotless_of_relative ((Glob.isAbsolute_of_found parsed member).trans ground),
      Path.dotless_of_relative relative, steps, ← same]
    rfl

/-- An argument stands for a file just when it names it. -/
theorem exists_standsFor_iff {patterns : List Text} {targets : List Path} {argument : Text}
    (collected : collect files ⟨['.']⟩ patterns = .ok targets) (listed : argument ∈ patterns)
    (below : Path.isAbsolute ⟨argument⟩ = false) :
    (∃ other, StandsFor files ⟨['.']⟩ argument other ∧ other.dotless = path.dotless) ↔ Names argument path := by
  rw [Names]
  split
  · next wild =>
    obtain ⟨paths, read, _⟩ := collect_eq_ok_iff.mp collected
    obtain ⟨glob, parsed⟩ := exists_glob_of_ofPatterns read listed wild
    simp only [← exists_found_iff relative located below parsed, standsFor_iff_of_wild wild, parsed, Except.ok.injEq,
      exists_eq_left']
  · next plain =>
    rw [Bool.not_eq_true] at plain
    have own : (Path.join ⟨['.']⟩ ⟨argument⟩).dotless = Path.dotless ⟨argument⟩ := by
      rw [Path.dotless_join ⟨['.']⟩ below, Path.dotless_of_relative below]
      rfl
    simp only [standsFor_iff_of_plain plain, exists_eq_left, own]

end

theorem isAbsolute_of_standsFor {files : FileSystem} {base path : Path} {pattern : Text} (filled : base.text ≠ [])
    (below : Path.isAbsolute ⟨pattern⟩ = false) (stands : StandsFor files base pattern path) :
    path.isAbsolute = base.isAbsolute := by
  cases stands with
  | path => exact Path.isAbsolute_join below filled
  | found _ parsed found => rw [Glob.isAbsolute_of_found parsed found, Path.isAbsolute_join below filled]

/-- A target is named from the current directory by its own steps. -/
theorem dotless_nameFrom_here {target : Path} (relative : target.isAbsolute = false) (filled : target.text ≠ []) :
    Path.dotless ⟨nameFrom ⟨['.']⟩ target⟩ = target.dotless := by
  have own (component : Path.Component) (member : component ∈ target.components) :=
    Path.here_or_isStep_of_mem_components relative member
  have named : Named ⟨['.']⟩ target ⟨nameFrom ⟨['.']⟩ target⟩ := named_nameFrom rfl (by decide) fun _ => filled
  generalize (⟨nameFrom ⟨['.']⟩ target⟩ : Path) = name at named
  cases named with
  | absolute side => cases relative.symm.trans side
  | @below rest _ same =>
    have ownRest : ∀ component ∈ rest, component = .here ∨ component.IsStep := fun component member =>
      own component (by simp [same, member])
    rw [Path.dotless_ofComponents ownRest, Path.dotless, same]
    rfl
  | fromHere => exact Path.dotless_ofComponents own
  | upwards _ _ other => exact absurd rfl other

end Targets

/-- Whether an entry is that of the file at a path: it is named by the steps of the path, and it holds the diagnostics
    of the file or an error of reading it. -/
def FileReport.IsOf (entry : FileReport) (path : Path) (contents : ByteArray) : Prop :=
  Path.dotless ⟨entry.file⟩ = path.dotless ∧
    ((∃ source, Text.decode? contents = some source ∧ entry = .ofSource entry.file source) ∨
      Text.decode? contents = none ∧ entry = .unreadable entry.file .notText ∨
      entry = .unreadable entry.file .notDirectory)

namespace Targets

variable {files : FileSystem} {path : Path} {location : Location} {contents : ByteArray}

/-- A target of the steps of a file has the entry of this file, be it that the target is spelled like a directory. -/
theorem isOf_entry (relative : path.isAbsolute = false) (located : files.locate path = .ok (location, .file contents))
    {target : Path} (filled : target.text ≠ []) (same : target.dotless = path.dotless) :
    (entry files ⟨['.']⟩ target).IsOf path contents := by
  have side := Path.isAbsolute_eq_of_dotless same
  have named := entry_file files ⟨['.']⟩ target
  refine ⟨?_, ?_⟩
  · rw [named, dotless_nameFrom_here (side.trans relative) filled, same]
  · rw [named, entry, FileSystem.read]
    rcases FileSystem.locate_of_steps located side (Path.steps_eq_of_dotless same) filled with found | ⟨failed, _⟩
    · rw [found]
      cases decoded : Text.decode? contents with
      | none => simp [decoded, FileReport.unreadable]
      | some source => simp [decoded, FileReport.ofSource]
    · rw [failed]
      exact .inr (.inr rfl)

end Targets

namespace Session

theorem report_eq {session : Session} {config : Config.Effective} {paths : List Text} (some_path : paths ≠ [])
    (unpiped : stdinName ∉ paths) : session.report config paths = session.reportBelow ⟨['.']⟩ paths := by
  have all : paths.filter (· ≠ stdinName) = paths :=
    List.filter_eq_self.mpr fun path member => by
      rw [decide_eq_true_eq]
      rintro rfl
      exact unpiped member
  rw [report, if_neg (by simpa using some_path), all]
  cases session.reportBelow ⟨['.']⟩ paths with
  | error failure => rfl
  | ok report => exact if_neg (by simpa using unpiped)

variable {session : Session} {config : Config.Effective} {paths : List Text} {report : Report}

theorem exists_collected (unpiped : stdinName ∉ paths) (reported : session.report config paths = .ok report)
    (some_path : paths ≠ []) : ∃ targets, Targets.collect session.files ⟨['.']⟩ paths = .ok targets ∧
      report = Targets.lint session.files ⟨['.']⟩ targets := by
  rw [report_eq some_path unpiped, reportBelow] at reported
  split at reported
  · cases reported
  · next targets collected =>
    cases reported
    exact ⟨targets, collected, rfl⟩

section
variable (relative : ∀ path ∈ paths, Path.isAbsolute ⟨path⟩ = false) (unpiped : stdinName ∉ paths)
  (reported : session.report config paths = .ok report)
include relative unpiped reported

/-- A file has an entry just when an argument names it. -/
theorem exists_entry_iff (some_path : paths ≠ []) {path : Path} (below : path.isAbsolute = false) {location : Location}
    {contents : ByteArray} (located : session.files.locate path = .ok (location, .file contents)) :
    (∃ entry ∈ report.files, entry.IsOf path contents) ↔ ∃ argument ∈ paths, Names argument path := by
  obtain ⟨targets, collected, rfl⟩ := exists_collected unpiped reported some_path
  have filled (target : Path) (member : target ∈ targets) : target.text ≠ [] :=
    Targets.text_ne_nil_of_mem collected member (by simp)
  constructor
  · rintro ⟨entry, member, named, _⟩
    obtain ⟨target, kept, rfl⟩ := List.mem_map.mp (List.mem_mergeSort.mp member)
    obtain ⟨argument, listed, stands⟩ := Targets.standsFor_of_mem collected kept
    have side := Targets.isAbsolute_of_standsFor (by simp) (relative argument listed) stands
    rw [Targets.entry_file, Targets.dotless_nameFrom_here side (filled target kept)] at named
    exact ⟨argument, listed, (Targets.exists_standsFor_iff below located collected listed
      (relative argument listed)).mp ⟨target, stands, named⟩⟩
  · rintro ⟨argument, listed, names⟩
    obtain ⟨other, stands, same⟩ :=
      (Targets.exists_standsFor_iff below located collected listed (relative argument listed)).mpr names
    obtain ⟨target, kept, spelled⟩ := Targets.exists_target collected listed stands
    exact ⟨_, List.mem_mergeSort.mpr (List.mem_map_of_mem kept), Targets.isOf_entry below located
      (filled target kept) (((Path.components_eq_iff _ _).mp spelled).2.trans same)⟩

/-- The path of a file names it if it holds no set, no double star and no empty piece. -/
theorem names_self {path : Text} (listed : path ∈ paths) {location : Location} {contents : ByteArray}
    (located : session.files.locate ⟨path⟩ = .ok (location, .file contents)) (unset : '[' ∉ path)
    (solid : [] ∉ Path.segments ⟨path⟩) (single : ['*', '*'] ∉ Path.segments ⟨path⟩) : Names path ⟨path⟩ := by
  obtain ⟨targets, collected, _⟩ := exists_collected unpiped reported (List.ne_nil_of_mem listed)
  rw [Names]
  split
  · next wild =>
    obtain ⟨_, read, _⟩ := Targets.collect_eq_ok_iff.mp collected
    obtain ⟨glob, parsed⟩ := Targets.exists_glob_of_ofPatterns read listed wild
    obtain ⟨_, pieces, _, own, _⟩ := Glob.pieces_of_join (relative path listed) (by simp) rfl parsed
    exact ⟨pieces, _, Targets.matches_self located own unset solid single⟩
  · rfl

end

/-- An argument that is the path of a file has an entry for this file in the report, if it holds no wildcard or matches
    itself as a pattern, as it does without sets, double stars and empty pieces. In general a file has an entry just
    when some argument is its path or matches it. -/
theorem reported_exact (relative : ∀ path ∈ paths, Path.isAbsolute ⟨path⟩ = false) (unpiped : stdinName ∉ paths)
    (reported : session.report config paths = .ok report) :
    (∀ path ∈ paths, ∀ location contents, session.files.locate ⟨path⟩ = .ok (location, .file contents) →
      Names path ⟨path⟩ ∨ ('[' ∉ path ∧ [] ∉ Path.segments ⟨path⟩ ∧ ['*', '*'] ∉ Path.segments ⟨path⟩) →
        ∃ entry ∈ report.files, entry.IsOf ⟨path⟩ contents) ∧
    (paths ≠ [] → ∀ path : Path, path.isAbsolute = false → ∀ location contents,
      session.files.locate path = .ok (location, .file contents) →
        ((∃ entry ∈ report.files, entry.IsOf path contents) ↔ ∃ argument ∈ paths, Names argument path)) := by
  refine ⟨fun path listed location contents located own => ?_, fun some_path path below location contents located =>
    exists_entry_iff relative unpiped reported some_path below located⟩
  refine (exists_entry_iff relative unpiped reported (List.ne_nil_of_mem listed) (relative path listed) located).mpr
    ⟨path, listed, ?_⟩
  rcases own with names | ⟨unset, solid, single⟩
  · exact names
  · exact names_self relative unpiped reported listed located unset solid single

/-- A star in the name of a file stands for itself. -/
theorem reported_exact_star :
    Session.report ⟨.ofLocations [[⟨"a*.strudel".toList, rfl⟩]], .empty, false⟩ ⟨⟨['.']⟩, .human, [], false⟩
      ["a*.strudel".toList] = .ok ⟨[⟨"a*.strudel".toList, ⟨[]⟩⟩]⟩ ∧
    ∃ entry ∈ ([⟨"a*.strudel".toList, ⟨[]⟩⟩] : List FileReport), entry.IsOf ⟨"a*.strudel".toList⟩ .empty :=
  have reported (stdin : ByteArray) : Session.report ⟨.ofLocations [[⟨"a*.strudel".toList, rfl⟩]], stdin, false⟩
      ⟨⟨['.']⟩, .human, [], false⟩ ["a*.strudel".toList] = .ok ⟨[⟨"a*.strudel".toList, ⟨[]⟩⟩]⟩ := by cbv
  ⟨reported _, (reported_exact (by decide) (by decide) (reported .empty)).1 _ List.mem_cons_self
    [⟨"a*.strudel".toList, rfl⟩] .empty rfl (.inr (by decide))⟩

/-- A set in the name of a file does not stand for itself, and the file is left out. -/
theorem unreported_of_brackets :
    FileSystem.locate (.ofLocations [[⟨"a[1].strudel".toList, rfl⟩]]) ⟨"a[1].strudel".toList⟩ =
      .ok ([⟨"a[1].strudel".toList, rfl⟩], .file .empty) ∧
    Session.report ⟨.ofLocations [[⟨"a[1].strudel".toList, rfl⟩]], .empty, false⟩ ⟨⟨['.']⟩, .human, [], false⟩
      ["a[1].strudel".toList] = .ok ⟨[]⟩ :=
  have reported (stdin : ByteArray) : Session.report ⟨.ofLocations [[⟨"a[1].strudel".toList, rfl⟩]], stdin, false⟩
      ⟨⟨['.']⟩, .human, [], false⟩ ["a[1].strudel".toList] = .ok ⟨[]⟩ := by cbv
  ⟨rfl, reported _⟩

end Session
end PatternLint
