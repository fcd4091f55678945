import PatternLint.FileSystem
import PatternLint.Proofs.Components
import PatternLint.Proofs.Ordered

/-!
# Following paths

What is listed below a directory is what is there (`mem_below_iff`, `mem_names_iff`). Where a path leads depends on
its steps alone: paths of the same steps lead to the same place, except that a path spelled like that of a directory
does not lead to a file (`locate_of_steps`).
-/
namespace PatternLint

theorem Name.ofText?_eq_some_iff {text : Text} {name : Name} : Name.ofText? text = some name ↔ text = name.text := by
  rw [Name.ofText?]
  obtain ⟨own, isName⟩ := name
  split
  · simp
  · next other =>
    simp only [reduceCtorEq, false_iff]
    rintro rfl
    exact other isName

theorem isEntryName_iff (text : Text) : isEntryName text = true ↔
    text ≠ [] ∧ '/' ∉ text ∧ '\x00' ∉ text ∧ text ≠ ['.'] ∧ text ≠ ['.', '.'] := by
  simp [isEntryName, and_assoc]

theorem Name.solid (name : Name) : Path.isVoid name.text = false := by
  obtain ⟨filled, _, _, other, _⟩ := (isEntryName_iff name.text).mp name.isName
  simp [Path.isVoid, filled, other]

theorem Name.ne_nil (name : Name) : name.text ≠ [] := ((isEntryName_iff name.text).mp name.isName).1

theorem Name.ne_here (name : Name) : name.text ≠ ['.'] := ((isEntryName_iff name.text).mp name.isName).2.2.2.1

theorem Name.free (name : Name) : '/' ∉ name.text := ((isEntryName_iff name.text).mp name.isName).2.1

theorem Name.clean (name : Name) : '\x00' ∉ name.text := ((isEntryName_iff name.text).mp name.isName).2.2.1

theorem Name.ne_up (name : Name) : name.text ≠ ['.', '.'] := ((isEntryName_iff name.text).mp name.isName).2.2.2.2

theorem Name.component? (name : Name) : Path.component? name.text = some (.name name.text) := by
  rw [Path.component?, name.solid, if_neg Bool.false_ne_true, if_neg name.ne_up]

theorem Name.text_injective : Function.Injective Name.text := by
  rintro ⟨a, _⟩ ⟨b, _⟩ same
  cases same
  rfl

namespace FileSystem

/-! ### What is there -/

instance : Std.TransCmp order := inferInstanceAs (Std.TransCmp (compareOn fun location : Location => location.map (·.text)))

instance : Std.LawfulEqCmp order where
  eq_of_compare same := by
    rw [order, Std.LawfulEqCmp.compare_eq_iff_eq] at same
    exact List.map_injective_iff.mpr Name.text_injective same

theorem isBelow_iff (top location : Location) : isBelow top location = true ↔ ∃ way, way ≠ [] ∧ location = top ++ way := by
  rw [isBelow, Bool.and_eq_true, List.isPrefixOf_iff_prefix, decide_eq_true_eq]
  constructor
  · rintro ⟨⟨way, rfl⟩, shorter⟩
    refine ⟨way, ?_, rfl⟩
    rintro rfl
    simp at shorter
  · rintro ⟨way, some_way, rfl⟩
    have := List.length_pos_iff.mpr some_way
    simp only [List.prefix_append, List.length_append, true_and]
    omega

theorem mem_way_iff (location other : Location) : other ∈ way location ↔ other ≠ [] ∧ other <+: location := by
  rw [way, List.mem_map]
  constructor
  · rintro ⟨n, inside, rfl⟩
    rw [List.mem_range] at inside
    refine ⟨?_, List.take_prefix _ _⟩
    rw [Ne, List.take_eq_nil_iff]
    rintro (none | rfl)
    · simp at none
    · simp at inside
  · rintro ⟨some_name, starts⟩
    have positive := List.length_pos_iff.mpr some_name
    refine ⟨other.length - 1, ?_, ?_⟩
    · rw [List.mem_range]
      have := starts.length_le
      omega
    · rw [Nat.sub_add_cancel positive]
      exact (List.prefix_iff_eq_take.mp starts).symm

/-- Whether there is something at a location. -/
def holds (files : FileSystem) (location : Location) : Bool := Option.isSome <| files.entry? location

theorem holds_of_eq_some {files : FileSystem} {location : Location} {entry : Entry}
    (there : files.entry? location = some entry) : files.holds location = true := by
  rw [holds, there, Option.isSome_some]

theorem exists_entry_of_holds {files : FileSystem} {location : Location} (there : files.holds location = true) :
    ∃ entry, files.entry? location = some entry := Option.isSome_iff_exists.mp there

/-- There is something at a location when it is the top or on the way to an entry. -/
theorem holds_iff (files : FileSystem) (location : Location) : files.holds location = true ↔
    location = [] ∨ ∃ entry ∈ files.entries, location <+: entry.1 := by
  rw [holds, entry?]
  split
  · next above =>
    simp only [Option.isSome_some, true_iff]
    rw [Bool.or_eq_true, List.isEmpty_iff, List.any_eq_true] at above
    refine above.imp_right fun ⟨entry, listed, below⟩ => ⟨entry, listed, ?_⟩
    obtain ⟨way, _, same⟩ := (isBelow_iff _ _).mp below
    exact same ▸ List.prefix_append _ _
  · next lowest =>
    rw [Bool.or_eq_true, List.isEmpty_iff, List.any_eq_true, not_or] at lowest
    rw [Option.isSome_map, List.find?_isSome]
    constructor
    · rintro ⟨entry, listed, same⟩
      exact .inr ⟨entry, listed, by simp [of_decide_eq_true same]⟩
    · rintro (top | ⟨entry, listed, way, same⟩)
      · exact absurd top lowest.1
      · refine ⟨entry, listed, decide_eq_true ?_⟩
        cases way with
        | nil => simpa using same.symm
        | cons name way =>
          exact absurd ⟨entry, listed, (isBelow_iff _ _).mpr ⟨name :: way, by simp, same.symm⟩⟩ lowest.2

/-- What lies on the way to something is a directory. -/
theorem entry?_of_holds {files : FileSystem} {location way : Location} (some_way : way ≠ [])
    (there : files.holds (location ++ way) = true) : files.entry? location = some .directory := by
  rw [holds_iff] at there
  rcases there with none | ⟨entry, listed, rest, same⟩
  · exact absurd (List.append_eq_nil_iff.mp none).2 some_way
  · unfold entry?
    refine if_pos ?_
    rw [Bool.or_eq_true, List.any_eq_true]
    exact .inr ⟨entry, listed, (isBelow_iff _ _).mpr ⟨way ++ rest, by simp [some_way], by rw [← same, List.append_assoc]⟩⟩

theorem mem_locations_iff (files : FileSystem) (location : Location) :
    location ∈ files.locations ↔ location ≠ [] ∧ files.holds location = true := by
  rw [locations, Ordered.mem_ofList_iff, List.mem_flatMap, holds_iff]
  simp only [mem_way_iff]
  constructor
  · rintro ⟨entry, listed, some_name, starts⟩
    exact ⟨some_name, .inr ⟨entry, listed, starts⟩⟩
  · rintro ⟨some_name, none | ⟨entry, listed, starts⟩⟩
    · exact absurd none some_name
    · exact ⟨entry, listed, some_name, starts⟩

/-- What is listed below a location is what is there. -/
theorem mem_below_iff (files : FileSystem) (top location : Location) : location ∈ files.below top ↔
    (∃ way, way ≠ [] ∧ location = top ++ way) ∧ files.holds location = true := by
  rw [below, List.mem_filter, mem_locations_iff, isBelow_iff]
  constructor
  · rintro ⟨⟨_, there⟩, below⟩
    exact ⟨below, there⟩
  · rintro ⟨⟨way, some_way, rfl⟩, there⟩
    exact ⟨⟨by simp [some_way], there⟩, way, some_way, rfl⟩

/-- The names in a directory are those of what is there. -/
theorem mem_names_iff (files : FileSystem) (directory : Location) (name : Name) :
    name ∈ files.names directory ↔ files.holds (directory ++ [name]) = true := by
  rw [names, List.mem_filterMap]
  constructor
  · rintro ⟨location, listed, named⟩
    obtain ⟨⟨way, _, rfl⟩, there⟩ := (mem_below_iff _ _ _).mp listed
    split at named
    · next one =>
      obtain ⟨only, rfl⟩ : ∃ only, way = [only] := List.length_eq_one_iff.mp (by simpa using one)
      rw [List.getLast?_append_cons, List.getLast?_singleton, Option.some.injEq] at named
      rwa [← named]
    · cases named
  · intro there
    exact ⟨directory ++ [name], (mem_below_iff _ _ _).mpr ⟨⟨[name], by simp, rfl⟩, there⟩, by simp⟩

/-! ### Steps and walks -/

theorem entry?_of_step {files : FileSystem} {location next : Location} {segment : Text}
    (stepped : files.step location segment = .ok next) : files.entry? location = some .directory := by
  rw [step] at stepped
  split at stepped
  · cases stepped
  · cases stepped
  · next there => exact there

theorem step_of_void {files : FileSystem} {location : Location} {segment : Text}
    (there : files.entry? location = some .directory) (void : Path.isVoid segment = true) :
    files.step location segment = .ok location := by
  simp [step, there, void]

theorem step_name {files : FileSystem} {location : Location} (there : files.entry? location = some .directory)
    (name : Name) : files.step location name.text = .ok (location ++ [name]) := by
  simp [step, there, name.solid, name.ne_up, Name.ofText?_eq_some_iff.mpr rfl]

theorem nul_of_step {files : FileSystem} {location next : Location} {segment : Text}
    (stepped : files.step location segment = .ok next) : '\x00' ∉ segment := by
  rw [step, entry?_of_step stepped] at stepped
  dsimp only at stepped
  split at stepped
  · next void =>
    rcases (Path.isVoid_iff segment).mp void with rfl | rfl <;> decide
  · split at stepped
    · next up => rw [up]; decide
    · split at stepped
      · next name named =>
        rw [Name.ofText?_eq_some_iff.mp named]
        exact name.clean
      · cases stepped

theorem walk_cons_eq_ok_iff {files : FileSystem} {location target : Location} {segment : Text} {segments : List Text} :
    files.walk location (segment :: segments) = .ok target ↔
      ∃ next, files.step location segment = .ok next ∧ files.walk next segments = .ok target := by
  rw [walk]
  cases files.step location segment <;> simp

theorem walk_append_eq_ok_iff {files : FileSystem} {location target : Location} {first second : List Text} :
    files.walk location (first ++ second) = .ok target ↔
      ∃ next, files.walk location first = .ok next ∧ files.walk next second = .ok target := by
  induction first generalizing location with
  | nil => simp [walk]
  | cons segment first ih =>
    rw [List.cons_append, walk_cons_eq_ok_iff]
    simp only [walk_cons_eq_ok_iff]
    constructor
    · rintro ⟨next, stepped, walked⟩
      obtain ⟨between, before, after⟩ := ih.mp walked
      exact ⟨between, ⟨next, stepped, before⟩, after⟩
    · rintro ⟨between, ⟨next, stepped, before⟩, after⟩
      exact ⟨next, stepped, ih.mpr ⟨between, before, after⟩⟩

/-- Names lead down from a directory. -/
theorem walk_names {files : FileSystem} {location target : Location} {way : Location} {segments : List Text}
    (walked : files.walk location (way.map (·.text) ++ segments) = .ok target) :
    files.walk (location ++ way) segments = .ok target := by
  induction way generalizing location with
  | nil => simpa using walked
  | cons name way ih =>
    obtain ⟨next, stepped, onward⟩ := walk_cons_eq_ok_iff.1 walked
    rw [step_name (entry?_of_step stepped)] at stepped
    cases stepped
    simpa using ih onward

/-- Names lead down to whatever is there. -/
theorem walk_way {files : FileSystem} {location way : Location} (there : files.holds (location ++ way) = true) :
    files.walk location (way.map (·.text)) = .ok (location ++ way) := by
  induction way generalizing location with
  | nil => simp [walk]
  | cons name way ih =>
    have isDirectory := entry?_of_holds (List.cons_ne_nil name way) there
    rw [List.append_cons] at there ⊢
    exact walk_cons_eq_ok_iff.2 ⟨_, step_name isDirectory name, ih there⟩

/-- A walk that ends somewhere starts somewhere. -/
theorem holds_of_walk {files : FileSystem} {location target : Location} {segments : List Text}
    (walked : files.walk location segments = .ok target) (there : files.holds target = true) :
    files.holds location = true := by
  cases segments with
  | nil =>
    cases walked
    exact there
  | cons segment segments =>
    obtain ⟨next, stepped, _⟩ := walk_cons_eq_ok_iff.1 walked
    exact holds_of_eq_some (entry?_of_step stepped)

/-- Pieces that are no components can be left out of a walk. -/
theorem walk_solid {files : FileSystem} {location target : Location} {segments : List Text}
    (walked : files.walk location segments = .ok target) :
    files.walk location (segments.filter (!Path.isVoid ·)) = .ok target := by
  induction segments generalizing location with
  | nil => exact walked
  | cons segment segments ih =>
    obtain ⟨next, stepped, onward⟩ := walk_cons_eq_ok_iff.1 walked
    cases void : Path.isVoid segment with
    | true =>
      rw [step_of_void (entry?_of_step stepped) void] at stepped
      cases stepped
      simpa [void] using ih onward
    | false =>
      rw [List.filter_cons_of_pos (by simp [void])]
      exact walk_cons_eq_ok_iff.2 ⟨next, stepped, ih onward⟩

/-- No piece is followed from a file. -/
theorem eq_nil_of_walk {files : FileSystem} {location target : Location} {segments : List Text}
    (walked : files.walk location segments = .ok target) (other : files.entry? location ≠ some .directory) :
    segments = [] := by
  cases segments with
  | nil => rfl
  | cons segment segments =>
    obtain ⟨_, stepped, _⟩ := walk_cons_eq_ok_iff.1 walked
    exact absurd (entry?_of_step stepped) other

/-- Pieces that are no components can be put into a walk, but not behind a file. -/
theorem walk_of_solid {files : FileSystem} {location target : Location} {entry : Entry} {segments : List Text}
    (walked : files.walk location (segments.filter (!Path.isVoid ·)) = .ok target)
    (there : files.entry? target = some entry) :
    files.walk location segments = .ok target ∨ files.walk location segments = .error .notDirectory ∧
      (∃ contents, entry = .file contents) ∧ ∃ last ∈ segments.getLast?, Path.isVoid last = true := by
  induction segments generalizing location with
  | nil => exact .inl walked
  | cons segment segments ih =>
    -- the last piece of what is left is the last piece of all
    have last (closed : ∃ last ∈ segments.getLast?, Path.isVoid last = true) :
        ∃ last ∈ (segment :: segments).getLast?, Path.isVoid last = true := by
      obtain ⟨last, ends, void⟩ := closed
      refine ⟨last, ?_, void⟩
      rw [Option.mem_def] at ends ⊢
      rw [List.getLast?_cons, ends, Option.getD_some]
    cases void : Path.isVoid segment with
    | true =>
      rw [List.filter_cons_of_neg (by simp [void])] at walked
      by_cases above : files.entry? location = some .directory
      · rw [walk, step_of_void above void]
        exact (ih walked).imp_right fun ⟨failed, isFile, closed⟩ => ⟨failed, isFile, last closed⟩
      · have none := eq_nil_of_walk walked above
        rw [none] at walked
        cases walked
        cases entry with
        | directory => exact absurd there above
        | file contents =>
          have some_piece := List.cons_ne_nil segment segments
          refine .inr ⟨by simp [walk, step, there], ⟨contents, rfl⟩, _, List.getLast?_eq_some_getLast some_piece, ?_⟩
          rcases List.mem_cons.mp (List.getLast_mem some_piece) with same | later
          · rw [same, void]
          · simpa using List.filter_eq_nil_iff.mp none _ later
    | false =>
      rw [List.filter_cons_of_pos (by simp [void])] at walked
      obtain ⟨next, stepped, onward⟩ := walk_cons_eq_ok_iff.1 walked
      rw [walk, stepped]
      exact (ih onward).imp_right fun ⟨failed, isFile, closed⟩ => ⟨failed, isFile, last closed⟩

/-- Behind the pieces that lead to a file a walk ends there, unless they end like a directory. -/
theorem walk_of_open {files : FileSystem} {location target : Location} {entry : Entry} {segments : List Text}
    (walked : files.walk location (segments.filter (!Path.isVoid ·)) = .ok target)
    (there : files.entry? target = some entry) (isOpen : ∀ last ∈ segments.getLast?, Path.isVoid last = false) :
    files.walk location segments = .ok target := by
  rcases walk_of_solid walked there with reached | ⟨_, _, last, ends, void⟩
  · exact reached
  · rw [isOpen last ends] at void
    cases void

/-- Pieces that name what is there lead to it. -/
theorem walk_of_names {files : FileSystem} {location way : Location} {entry : Entry} {segments : List Text}
    (names : segments.filterMap Path.component? = way.map fun name => .name name.text)
    (there : files.entry? (location ++ way) = some entry)
    (isOpen : ∀ last ∈ segments.getLast?, Path.isVoid last = false) :
    files.walk location segments = .ok (location ++ way) := by
  have down := walk_way (holds_of_eq_some there)
  refine walk_of_open ?_ there isOpen
  rw [Path.filter_solid, names, List.map_map]
  exact down

/-! ### Where a path leads -/

/-- Where a path is followed from. -/
def start (files : FileSystem) (path : Path) : Location := if path.isAbsolute then [] else files.here

theorem locate_eq_ok_iff {files : FileSystem} {path : Path} {location : Location} {entry : Entry} :
    files.locate path = .ok (location, entry) ↔ '\x00' ∉ path.text ∧ path.text ≠ [] ∧
      files.walk (files.start path) path.segments = .ok location ∧ files.entry? location = some entry := by
  rw [locate, start]
  split
  · next nul => simp [List.contains_iff_mem.mp nul]
  · next clean =>
    rw [List.contains_iff_mem] at clean
    split
    · next empty => simp [List.isEmpty_iff.mp empty]
    · next filled =>
      rw [List.isEmpty_iff] at filled
      cases walked : files.walk (if path.isAbsolute then [] else files.here) path.segments with
      | error error => simp
      | ok target =>
        cases there : files.entry? target with
        | none =>
          simp only [there, reduceCtorEq, false_iff, Except.ok.injEq, not_and]
          rintro _ _ rfl
          simp [there]
        | some found =>
          simp only [there, Except.ok.injEq, Prod.mk.injEq]
          constructor
          · rintro ⟨rfl, rfl⟩
            exact ⟨clean, filled, rfl, there⟩
          · rintro ⟨_, _, rfl, here⟩
            exact ⟨rfl, by simpa [there] using here⟩

theorem entry?_of_locate {files : FileSystem} {path : Path} {location : Location} {entry : Entry}
    (found : files.locate path = .ok (location, entry)) : files.entry? location = some entry :=
  (locate_eq_ok_iff.1 found).2.2.2

theorem directory?_eq_some_iff {files : FileSystem} {path : Path} {location : Location} :
    files.directory? path = some location ↔ files.locate path = .ok (location, .directory) := by
  rw [directory?]
  split
  · next found => simp [found]
  · next other => simpa using fun found => other location found

theorem isFile_iff {files : FileSystem} {path : Path} :
    files.isFile path = true ↔ ∃ location contents, files.locate path = .ok (location, .file contents) := by
  rw [isFile]
  split
  · next found => simp [found]
  · next other => simpa using fun location contents found => other location contents found

/-- The path of a file does not end like that of a directory. -/
theorem solid_of_isFile {files : FileSystem} {path : Path} (isFile : files.isFile path = true) :
    ∀ last ∈ path.segments.getLast?, Path.isVoid last = false := by
  intro last ends
  obtain ⟨location, contents, found⟩ := isFile_iff.mp isFile
  obtain ⟨_, _, walked, there⟩ := locate_eq_ok_iff.1 found
  obtain ⟨front, segments⟩ := List.getLast?_eq_some_iff.mp ends
  rw [segments, walk_append_eq_ok_iff] at walked
  obtain ⟨between, _, walked⟩ := walked
  obtain ⟨next, stepped, stays⟩ := walk_cons_eq_ok_iff.1 walked
  cases stays
  rw [Bool.eq_false_iff]
  intro void
  have above := entry?_of_step stepped
  rw [step_of_void above void] at stepped
  cases stepped
  cases above.symm.trans there

/-- The current directory is not a file. -/
theorem isFile_of_isHere {files : FileSystem} {path : Path} (here : path.isHere = true) : files.isFile path = false := by
  rw [Bool.eq_false_iff, Ne, isFile_iff]
  rintro ⟨location, contents, found⟩
  obtain ⟨starts, none⟩ := (Path.isHere_iff path).mp here
  obtain ⟨_, _, walked, there⟩ := locate_eq_ok_iff.1 found
  have stayed := walk_solid walked
  rw [Path.solid_segments, none] at stayed
  cases stayed
  -- the dot is followed, and that takes a directory
  obtain ⟨rest, pieces⟩ := List.head?_eq_some_iff.mp (of_decide_eq_true starts)
  rw [pieces] at walked
  obtain ⟨next, stepped, _⟩ := walk_cons_eq_ok_iff.1 walked
  rw [entry?_of_step stepped] at there
  cases there

/-- Paths of the same steps lead to the same place, unless one of them is spelled like that of a directory and this
    is a file. -/
theorem locate_of_steps {files : FileSystem} {path other : Path} {location : Location} {entry : Entry}
    (found : files.locate path = .ok (location, entry)) (side : other.isAbsolute = path.isAbsolute)
    (same : other.steps = path.steps) (filled : other.text ≠ []) :
    files.locate other = .ok (location, entry) ∨ files.locate other = .error .notDirectory ∧
      (∃ contents, entry = .file contents) ∧ ∃ last ∈ other.segments.getLast?, Path.isVoid last = true := by
  obtain ⟨clean, _, walked, there⟩ := locate_eq_ok_iff.1 found
  have nul : '\x00' ∉ other.text := by
    rw [Path.mem_text_iff other (by decide) (by decide), same, ← Path.mem_text_iff path (by decide) (by decide)]
    exact clean
  have from_start : files.start other = files.start path := by rw [start, start, side]
  have solid := walk_solid walked
  rw [Path.solid_segments, ← same, ← Path.solid_segments, ← from_start] at solid
  rcases walk_of_solid solid there with reached | ⟨stopped, isFile, closed⟩
  · exact .inl (locate_eq_ok_iff.2 ⟨nul, filled, reached, there⟩)
  · refine .inr ⟨?_, isFile, closed⟩
    rw [start] at stopped
    rw [locate, if_neg (by simpa using nul), if_neg (by simpa using filled), stopped]

theorem locate_dot {files : FileSystem} (there : files.entry? files.here = some .directory) :
    files.locate ⟨['.']⟩ = .ok (files.here, .directory) :=
  locate_eq_ok_iff.2 ⟨by decide, by decide,
    walk_cons_eq_ok_iff.2 ⟨files.here, step_of_void there rfl, rfl⟩, there⟩

theorem locate_top (files : FileSystem) : files.locate ⟨['/']⟩ = .ok ([], .directory) := by
  have top : files.entry? [] = some .directory := rfl
  have stays := step_of_void top (rfl : Path.isVoid [] = true)
  exact locate_eq_ok_iff.2 ⟨by decide, by decide,
    walk_cons_eq_ok_iff.2 ⟨[], stays, walk_cons_eq_ok_iff.2 ⟨[], stays, rfl⟩⟩, top⟩

/-- What lies in a directory is found below its path. -/
theorem locate_join {files : FileSystem} {directory : Path} {location next : Location} {entry : Entry} {segment : Text}
    (found : files.locate directory = .ok (location, .directory)) (free : '/' ∉ segment)
    (stepped : files.step location segment = .ok next) (there : files.entry? next = some entry) :
    files.locate (directory.join ⟨segment⟩) = .ok (next, entry) := by
  obtain ⟨clean, filled, walked, _⟩ := locate_eq_ok_iff.1 found
  have relative := Path.isAbsolute_of_free free
  refine locate_eq_ok_iff.2 ⟨?_, Path.text_join_ne_nil filled _, ?_, there⟩
  · have nul := nul_of_step stepped
    rw [Path.join]
    split
    · exact nul
    · split <;> simp [clean, nul]
  · have reached : files.walk (files.start directory) directory.openSegments = .ok location := by
      rcases directory.segments_eq_or with own | own
      · rwa [own] at walked
      · rw [own, walk_append_eq_ok_iff] at walked
        obtain ⟨before, reached, last⟩ := walked
        obtain ⟨after, stayed, ended⟩ := walk_cons_eq_ok_iff.1 last
        rw [step_of_void (entry?_of_step stayed) rfl] at stayed
        cases stayed
        cases ended
        exact reached
    rw [FileSystem.start, Path.isAbsolute_join relative filled, ← FileSystem.start,
      Path.segments_join relative filled, Path.segments_of_free free, walk_append_eq_ok_iff]
    exact ⟨location, reached, walk_cons_eq_ok_iff.2 ⟨next, stepped, rfl⟩⟩

end FileSystem
end PatternLint
