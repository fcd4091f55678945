import PatternLint.Proofs.Expansion

/-!
# What patterns spell

The components of a pattern spell lists of pieces (`Spells`). A file that is reached along a list that they spell is
found by the pattern (`exists_leads`), and whatever file is found is reached along one (`Leads.exists_reaches`). What
the components stand for they also spell (`Covers.exists_spells`).
-/
namespace PatternLint.Glob

/-! ### What is found -/

theorem locate_child {files : FileSystem} {directory : Path} {location next : Location} {entry : Entry} {text : Text}
    (found : files.locate directory = .ok (location, .directory)) (free : '/' ∉ text)
    (filled : directory.isHere = true → text ≠ []) (stepped : files.step location text = .ok next)
    (there : files.entry? next = some entry) : files.locate (child directory text) = .ok (next, entry) := by
  rw [child]
  split
  · next here =>
    obtain ⟨starts, none⟩ := (Path.isHere_iff directory).mp here
    have relative := Path.isAbsolute_of_startsHere starts
    -- a dot leads nowhere else, so the name is looked up in the current directory
    obtain ⟨_, _, walked, _⟩ := FileSystem.locate_eq_ok_iff.1 found
    have stayed := FileSystem.walk_solid walked
    rw [Path.solid_segments, none, FileSystem.start, relative] at stayed
    cases stayed
    refine FileSystem.locate_eq_ok_iff.2 ⟨FileSystem.nul_of_step stepped, filled here, ?_, there⟩
    rw [FileSystem.start, Path.isAbsolute_of_free free, Path.segments_of_free free]
    exact FileSystem.walk_cons_eq_ok_iff.2 ⟨next, stepped, rfl⟩
  · exact FileSystem.locate_join found free stepped there

theorem locate_descend {files : FileSystem} {directory : Path} {location way : Location} {start entry : Entry}
    (found : files.locate directory = .ok (location, start)) (there : files.entry? (location ++ way) = some entry) :
    files.locate (descend directory way) = .ok (location ++ way, entry) := by
  induction way generalizing directory location start with
  | nil =>
    rw [List.append_nil, FileSystem.entry?_of_locate found] at there
    cases there
    simpa [descend] using found
  | cons name way ih =>
    have isDirectory : files.entry? location = some .directory :=
      FileSystem.entry?_of_holds (List.cons_ne_nil name way) (FileSystem.holds_of_eq_some there)
    cases (FileSystem.entry?_of_locate found).symm.trans isDirectory
    rw [List.append_cons] at there ⊢
    have listed : files.holds (location ++ [name]) = true := by
      cases way with
      | nil =>
        rw [List.append_nil] at there
        exact FileSystem.holds_of_eq_some there
      | cons next way =>
        exact FileSystem.holds_of_eq_some
          (FileSystem.entry?_of_holds (List.cons_ne_nil next way) (FileSystem.holds_of_eq_some there))
    obtain ⟨between, first⟩ := FileSystem.exists_entry_of_holds listed
    have inside := locate_child found name.free (fun _ => name.ne_nil) (FileSystem.step_name isDirectory name) first
    exact ih inside there

/-- The pieces that the components of a pattern stand for one by one, two stars for any number of names and the name
    behind them for the next component. -/
inductive Spells : List Piece → List Text → Prop
  | nil : Spells [] []
  | literal {text : Text} {pieces : List Piece} {segments : List Text} :
      Spells pieces segments → Spells (.literal text :: pieces) (text :: segments)
  | dots {tokens : List Token} {dots : Text} {pieces : List Piece} {segments : List Text} :
      dots ∈ dotsMatching tokens → Spells pieces segments → Spells (.wildcard tokens :: pieces) (dots :: segments)
  | wildcard {tokens : List Token} {name : Name} {pieces : List Piece} {segments : List Text} :
      accepts tokens name.text = true → Spells pieces segments →
      Spells (.wildcard tokens :: pieces) (name.text :: segments)
  | repeated {pieces : List Piece} {segments : List Text} :
      Spells (.directories :: pieces) segments → Spells (.directories :: .directories :: pieces) segments
  | entry {above : Location} {name : Name} {piece : Piece} {pieces : List Piece} {segments : List Text} :
      piece ≠ .directories → piece.matches name.text = true → Spells pieces segments →
      Spells (.directories :: piece :: pieces) (above.map (·.text) ++ name.text :: segments)

theorem Spells.append {first second : List Piece} {lead rest : List Text} (spells : Spells first lead)
    (onward : Spells second rest) : Spells (first ++ second) (lead ++ rest) := by
  induction spells with
  | nil => exact onward
  | literal _ ih => exact .literal ih
  | dots matching _ ih => exact .dots matching ih
  | wildcard accepted _ ih => exact .wildcard accepted ih
  | repeated _ ih => exact .repeated ih
  | entry other accepted _ ih =>
    rw [List.append_assoc]
    exact .entry other accepted ih

theorem Spells.literals (segments : List Text) : Spells (segments.map .literal) segments := by
  induction segments with
  | nil => exact .nil
  | cons segment segments ih => exact .literal ih

/-- No piece that is spelled holds a slash. -/
theorem Spells.free {pieces : List Piece} {segments : List Text} (spells : Spells pieces segments)
    (slashFree : SlashFree pieces) : ∀ segment ∈ segments, '/' ∉ segment := by
  have in_front {text : Text} {segments : List Text} (own : '/' ∉ text) (rest : ∀ segment ∈ segments, '/' ∉ segment) :
      ∀ segment ∈ text :: segments, '/' ∉ segment := List.forall_mem_cons.mpr ⟨own, rest⟩
  induction spells with
  | nil => simp
  | literal _ ih => exact in_front (slashFree _ List.mem_cons_self) (ih slashFree.tail)
  | dots matching _ ih => exact in_front (free_of_mem_dotsMatching matching) (ih slashFree.tail)
  | @wildcard _ name _ _ _ _ ih => exact in_front name.free (ih slashFree.tail)
  | repeated _ ih => exact ih slashFree.tail
  | @entry above name piece pieces segments _ _ _ ih =>
    intro segment member
    rcases List.mem_append.mp member with inAbove | rest
    · obtain ⟨other, _, rfl⟩ := List.mem_map.mp inAbove
      exact other.free
    · exact in_front name.free (ih slashFree.tail.tail) segment rest

/-- Whether no empty piece comes first but for dots. In front of the current directory it would lead nowhere. -/
def Filled (segments : List Text) : Prop := (segments.dropWhile (· = ['.'])).head? ≠ some []

theorem filled_dot_iff (segments : List Text) : Filled (['.'] :: segments) ↔ Filled segments := by
  simp [Filled]

theorem filled_cons_iff {text : Text} (other : text ≠ ['.']) (segments : List Text) :
    Filled (text :: segments) ↔ text ≠ [] := by
  simp [Filled, other]

theorem filled_names (way : Location) (name : Name) (segments : List Text) :
    Filled (way.map (·.text) ++ name.text :: segments) := by
  cases way with
  | nil => exact (filled_cons_iff name.ne_here _).mpr name.ne_nil
  | cons first way => exact (filled_cons_iff first.ne_here _).mpr first.ne_nil

theorem filled_of_first {segments : List Text} (solid : (segments.map Path.isVoid).head? = some false) :
    Filled segments := by
  cases segments with
  | nil => cases solid
  | cons text segments =>
    have own : text ≠ [] ∧ text ≠ ['.'] := by simpa [Path.isVoid] using solid
    exact (filled_cons_iff own.2 segments).mpr own.1

theorem filled_of_not_mem {segments : List Text} (solid : [] ∉ segments) : Filled segments := fun first =>
  solid ((List.dropWhile_sublist _).subset (List.mem_of_head? first))

/-- The steps behind a piece, from the directory that the piece leads from. -/
theorem steps_onward {directory between path : Path} {text : Text} {segments : List Text}
    (first : between.steps = directory.steps ++ (Path.component? text).toList)
    (onward : path.steps = between.steps ++ segments.filterMap Path.component?) :
    path.steps = directory.steps ++ (text :: segments).filterMap Path.component? := by
  rw [onward, first, List.append_assoc, Path.toList_component?_append]

theorem filterMap_names (way : Location) :
    (way.map (·.text)).filterMap Path.component? = way.map fun name => .name name.text := by
  rw [List.filterMap_map]
  exact List.filterMap_eq_map_iff_forall_eq_some.mpr fun name _ => name.component?

/-- Below a dot of two the path is the current directory only if it was before and the dot is a single one. -/
theorem isHere_join_dots {directory : Path} {tokens : List Token} {dots : Text} (matching : dots ∈ dotsMatching tokens)
    (filled : directory.text ≠ []) (here : (directory.join ⟨dots⟩).isHere = true) :
    directory.isHere = true ∧ dots = ['.'] := by
  have free := free_of_mem_dotsMatching matching
  rw [Path.isHere_iff, startsHere_join_of_free free (.inl filled), steps_join_of_free free,
    List.append_eq_nil_iff] at here
  refine ⟨(Path.isHere_iff directory).mpr ⟨here.1, here.2.1⟩, ?_⟩
  obtain ⟨_, rfl | rfl, _⟩ := mem_dotsMatching_iff.mp matching
  · cases here.2.2
  · rfl

/-- A path is still the current directory only behind a dot, and then the next piece comes first. -/
theorem filled_of_isHere_child {directory : Path} {text : Text} {segments : List Text} (slash : '/' ∉ text)
    (filled : directory.text ≠ []) (solid : directory.isHere = true → Filled (text :: segments))
    (here : (child directory text).isHere = true) : Filled segments := by
  cases start : directory.isHere with
  | true =>
    rw [child, if_pos start, isHere_of_free slash, decide_eq_true_eq] at here
    exact (filled_dot_iff segments).mp (here ▸ solid start)
  | false =>
    rw [isHere_child slash start (.inl filled)] at here
    cases here

/-- A walk from a directory that is found goes on from the directory by its first piece. -/
theorem exists_step_of_walk {files : FileSystem} {directory : Path} {location target : Location} {start entry : Entry}
    {text : Text} {segments : List Text} (found : files.locate directory = .ok (location, start))
    (walked : files.walk location (text :: segments) = .ok target) (there : files.entry? target = some entry) :
    files.locate directory = .ok (location, .directory) ∧ ∃ next between, files.step location text = .ok next ∧
      files.walk next segments = .ok target ∧ files.entry? next = some between := by
  obtain ⟨next, stepped, onward⟩ := FileSystem.walk_cons_eq_ok_iff.1 walked
  cases (FileSystem.entry?_of_locate found).symm.trans (FileSystem.entry?_of_step stepped)
  obtain ⟨between, first⟩ :=
    FileSystem.exists_entry_of_holds (FileSystem.holds_of_walk onward (FileSystem.holds_of_eq_some there))
  exact ⟨found, next, between, stepped, onward, first⟩

/-- A path that is spelled as the components of a pattern demand is found, if there is something and no empty piece
    comes first below the current directory. -/
theorem exists_leads {files : FileSystem} {pieces : List Piece} {segments : List Text} (spells : Spells pieces segments)
    (free : ∀ segment ∈ segments, '/' ∉ segment) {directory : Path} {location target : Location} {start entry : Entry}
    (found : files.locate directory = .ok (location, start)) (solid : directory.isHere = true → Filled segments)
    (walked : files.walk location segments = .ok target) (there : files.entry? target = some entry) :
    ∃ path, Leads files pieces directory path ∧ files.locate path = .ok (target, entry) ∧
      path.steps = directory.steps ++ segments.filterMap Path.component? := by
  have holds {location : Location} {segments : List Text} (walked : files.walk location segments = .ok target) :
      files.holds location = true := FileSystem.holds_of_walk walked (FileSystem.holds_of_eq_some there)
  induction spells generalizing directory location start with
  | nil =>
    cases walked
    cases (FileSystem.entry?_of_locate found).symm.trans there
    exact ⟨directory, .done, found, by simp⟩
  | @literal text pieces segments _ ih =>
    obtain ⟨found, next, between, stepped, onward, first⟩ := exists_step_of_walk found walked there
    have inDirectory := FileSystem.directory?_eq_some_iff.mpr found
    obtain ⟨slash, later⟩ := List.forall_mem_cons.mp free
    have filled : directory.isHere = true → text ≠ [] := by
      rintro here rfl
      exact (filled_cons_iff (by simp) segments).mp (solid here) rfl
    have inside := locate_child found slash filled stepped first
    obtain ⟨path, leads, reached, steps⟩ := ih later inside
      (filled_of_isHere_child slash (text_ne_nil_of_directory? inDirectory) solid) onward
    refine ⟨path, .literal ?_ leads, reached, steps_onward (steps_child slash directory) steps⟩
    rw [isThere, inDirectory, FileSystem.exists?, inside]
    split <;> rfl
  | @dots tokens dots pieces segments matching _ ih =>
    obtain ⟨found, next, between, stepped, onward, first⟩ := exists_step_of_walk found walked there
    have inDirectory := FileSystem.directory?_eq_some_iff.mpr found
    have slash := free_of_mem_dotsMatching matching
    have still_solid (here : (directory.join ⟨dots⟩).isHere = true) : Filled segments := by
      obtain ⟨start, rfl⟩ := isHere_join_dots matching (text_ne_nil_of_directory? inDirectory) here
      exact (filled_dot_iff segments).mp (solid start)
    obtain ⟨path, leads, reached, steps⟩ := ih (List.forall_mem_cons.mp free).2
      (FileSystem.locate_join found slash stepped first) still_solid onward
    exact ⟨path, .dots inDirectory matching leads, reached, steps_onward (steps_join_of_free slash directory) steps⟩
  | @wildcard tokens name pieces segments accepted _ ih =>
    obtain ⟨found, next, between, stepped, onward, first⟩ := exists_step_of_walk found walked there
    have own := FileSystem.entry?_of_step stepped
    rw [FileSystem.step_name own] at stepped
    cases stepped
    have inside := locate_child found name.free (fun _ => name.ne_nil) (FileSystem.step_name own name) first
    have elsewhere : (child directory name.text).isHere = false :=
      isHere_of_steps_ne_nil (by simp [steps_child name.free, name.component?])
    obtain ⟨path, leads, reached, steps⟩ := ih (List.forall_mem_cons.mp free).2 inside
      (by simp [elsewhere]) onward
    exact ⟨path, .name (FileSystem.directory?_eq_some_iff.mpr found)
      ((FileSystem.mem_names_iff _ _ _).mpr (holds onward)) accepted leads, reached,
      steps_onward (steps_child name.free directory) steps⟩
  | @repeated pieces segments _ ih =>
    obtain ⟨path, leads, reached, steps⟩ := ih free found solid walked
    exact ⟨path, .repeated leads, reached, steps⟩
  | @entry above name piece pieces segments other accepted _ ih =>
    have split_way : above.map (·.text) ++ name.text :: segments = (above ++ [name]).map (·.text) ++ segments := by simp
    rw [split_way] at walked free ⊢
    have onward := FileSystem.walk_names walked
    have some_way : above ++ [name] ≠ [] := by simp
    cases (FileSystem.entry?_of_locate found).symm.trans (FileSystem.entry?_of_holds some_way (holds onward))
    obtain ⟨between, first⟩ := FileSystem.exists_entry_of_holds (holds onward)
    have elsewhere : (descend directory (above ++ [name])).isHere = false :=
      isHere_of_steps_ne_nil (by simp [steps_descend])
    obtain ⟨path, leads, reached, steps⟩ := ih (fun segment member => free segment (List.mem_append_right _ member))
      (locate_descend found first) (by simp [elsewhere]) onward
    refine ⟨path, .entry (FileSystem.directory?_eq_some_iff.mpr found)
      ((FileSystem.mem_below_iff _ _ _).mpr ⟨⟨_, some_way, rfl⟩, holds onward⟩) other
      List.getLast?_concat accepted leads, reached, ?_⟩
    rw [steps, steps_descend, List.append_assoc, List.filterMap_append, filterMap_names]

/-- Below a base, a pattern finds the file that is reached along pieces which the base, read as a pattern, and then
    the pattern spell. -/
theorem exists_found_of_spells {files : FileSystem} {base path : Path} {glob : Pattern}
    (relative : path.isAbsolute = false) (filled : base.text ≠ []) (side : base.isAbsolute = false)
    (read : Pattern.ofText (base.join path).text = .ok glob) (isOpen : path.segments.getLast? ≠ some [])
    {lead rest : List Piece} (inBase : piecesOf base.openSegments = .ok lead)
    (inPath : piecesOf path.openSegments = .ok rest) {segments : List Text} (spells : Spells (lead ++ rest) segments)
    (solid : Filled segments) (found : files.locate ⟨['.']⟩ = .ok (files.here, .directory)) {location : Location}
    {contents : ByteArray} (walked : files.walk files.here segments = .ok location)
    (there : files.entry? location = some (.file contents)) :
    ∃ other ∈ glob.files files, other.steps = segments.filterMap Path.component? := by
  obtain ⟨_, _, alsoInBase, alsoInPath, both⟩ := pieces_of_join relative filled side read
  cases inBase.symm.trans alsoInBase
  cases inPath.symm.trans alsoInPath
  have slashFree : SlashFree (lead ++ rest) := both ▸ free_of_ofText read
  obtain ⟨other, leads, reached, steps⟩ := exists_leads spells (spells.free slashFree) found (fun _ => solid) walked there
  refine ⟨other, (mem_files_iff files glob other).mpr ⟨(onlyDirectories_join_iff relative filled read).mpr isOpen,
    FileSystem.isFile_iff.mpr ⟨_, _, reached⟩, ?_⟩, steps⟩
  rw [(pieces_of_ofText read).1, Path.isAbsolute_join relative filled, side, if_neg Bool.false_ne_true, both]
  exact leads

/-- Pieces without sets and double stars spell themselves, if those with wildcards are names. -/
theorem spells_self {segments : List Text} {pieces : List Piece} (read : piecesOf segments = .ok pieces)
    (unset : ∀ segment ∈ segments, '[' ∉ segment) (single : ['*', '*'] ∉ segments)
    (free : ∀ segment ∈ segments, '/' ∉ segment)
    (named : ∀ segment ∈ segments, isPattern segment = true → isEntryName segment = true) : Spells pieces segments := by
  induction segments generalizing pieces with
  | nil =>
    cases read
    exact .nil
  | cons segment segments ih =>
    obtain ⟨found, rest, tokens, onward, rfl⟩ := piecesOf_cons_eq_ok_iff.mp read
    rw [List.mem_cons, not_or] at single
    rw [List.forall_mem_cons] at unset free named
    have spells := ih onward unset.2 single.2 free.2 named.2
    have own : Piece.Of segment (Piece.ofTokens found) := ⟨found, reads_of_tokensFrom tokens, rfl⟩
    cases piece : Piece.ofTokens found with
    | literal text =>
      rw [piece] at own
      rw [own.text_eq]
      exact .literal spells
    | wildcard tokens =>
      rw [piece] at own
      have wild : isPattern segment = true := by
        by_contra plain
        cases own.eq_literal (by simpa using plain)
      exact @Spells.wildcard tokens ⟨segment, named.1 wild⟩ rest segments (own.reads.accepts_self unset.1) spells
    | directories =>
      rw [piece] at own
      exact absurd (own.eq_stars free.1).symm single.1

/-! ### What is stood for -/

/-- What a piece of a component stands for is spelled in front of what the others spell, with a text that is left out
    just when the component is. -/
theorem Piece.Covers.exists_spelled {text : Text} {piece : Piece} {first : List Path.Component}
    (covers : piece.Covers first) (own : Piece.Of text piece)
    (named : Path.isVoid text = true ∨ isEntryName text = true) (single : text ≠ ['*', '*'])
    (undotted : text.head? = some '.' → isPattern text = false) :
    ∃ (segment : Text) (way : Location),
      (∀ {pieces segments}, Spells pieces segments → Spells (piece :: pieces) (segment :: segments)) ∧
      Path.isVoid segment = Path.isVoid text ∧ (Path.component? segment).toList = first ∧
      first = way.map fun name => .name name.text := by
  cases piece with
  | directories =>
    have free : '/' ∉ text := by
      rcases named with isVoid | isName
      · rcases (Path.isVoid_iff text).mp isVoid with rfl | rfl <;> decide
      · exact ((isEntryName_iff text).mp isName).2.1
    exact absurd (own.eq_stars free) single
  | literal other =>
    cases own.text_eq
    cases covers
    rcases named with isVoid | isName
    · exact ⟨text, [], .literal, rfl, rfl, by simp [(Path.component?_eq_none_iff text).mpr isVoid]⟩
    · exact ⟨text, [⟨text, isName⟩], .literal, rfl, rfl, by simp [Name.component? ⟨text, isName⟩]⟩
  | wildcard tokens =>
    have wild : isPattern text = true := by
      by_contra plain
      cases own.eq_literal (by simpa using plain)
    cases covers with
    | @name _ name accepted =>
      have solid : Path.isVoid text = false := by
        rw [Path.isVoid, Bool.or_eq_false_iff, List.isEmpty_eq_false_iff, decide_eq_false_iff_not]
        constructor <;>
          rintro rfl <;> cases wild
      exact ⟨name.text, [name], .wildcard accepted, by rw [solid, name.solid], by rw [name.component?]; rfl, rfl⟩
    | dots matching => exact absurd (mem_dotsMatching_iff.mp matching).1 (own.head?_ne_dot undotted)

/-- The steps that components stand for are spelled by them, with pieces left out where the components are written
    so. -/
theorem Covers.exists_spells {texts : List Text} {pieces : List Piece} {steps : List Path.Component}
    (covers : Covers pieces steps) (read : piecesOf texts = .ok pieces)
    (named : ∀ text ∈ texts, Path.isVoid text = true ∨ isEntryName text = true) (single : ['*', '*'] ∉ texts)
    (undotted : ∀ text ∈ texts, text.head? = some '.' → isPattern text = false) :
    ∃ (segments : List Text) (way : Location), Spells pieces segments ∧
      segments.map Path.isVoid = texts.map Path.isVoid ∧ segments.filterMap Path.component? = steps ∧
      steps = way.map fun name => .name name.text := by
  induction texts generalizing pieces steps with
  | nil =>
    cases read
    cases covers
    exact ⟨[], [], .nil, rfl, rfl, rfl⟩
  | cons text texts ih =>
    obtain ⟨found, rest, tokens, onward, rfl⟩ := piecesOf_cons_eq_ok_iff.mp read
    have piece : Piece.Of text (Piece.ofTokens found) := ⟨found, reads_of_tokensFrom tokens, rfl⟩
    rw [List.mem_cons, not_or] at single
    rw [List.forall_mem_cons] at named undotted
    cases covers with
    | cons own covers =>
      obtain ⟨segment, first, in_front, void, step, name⟩ :=
        own.exists_spelled piece named.1 (Ne.symm single.1) undotted.1
      obtain ⟨segments, way, spells, voids, same, names⟩ := ih covers onward named.2 single.2 undotted.2
      refine ⟨segment :: segments, first ++ way, in_front spells, by simp [void, voids], ?_, ?_⟩
      · rw [← Path.toList_component?_append, step, same]
      · rw [List.map_append, ← name, ← names]

/-! ### What reaches a file -/

/-- Pieces that a pattern spells on the way from a directory to a file that it leads to. -/
structure Reaches (pieces : List Piece) (directory path : Path) (segments : List Text) : Prop where
  spells : Spells pieces segments
  steps : path.steps = directory.steps ++ segments.filterMap Path.component?
  filled : directory.isHere = true → Filled segments
  solid : ∀ last ∈ segments.getLast?, Path.isVoid last = false
  stays : segments = [] → path = directory

theorem getLast?_segments_join_of_free {text : Text} (free : '/' ∉ text) (directory : Path) :
    (directory.join ⟨text⟩).segments.getLast? = some text := by
  have own := Path.segments_of_free free
  by_cases empty : directory.text = []
  · rw [Path.join_of_empty empty, own]
    rfl
  · rw [Path.segments_join (Path.isAbsolute_of_free free) empty, own, List.getLast?_concat]

theorem getLast?_segments_child {text : Text} (free : '/' ∉ text) (directory : Path) :
    (child directory text).segments.getLast? = some text := by
  rw [child]
  split
  · rw [Path.segments_of_free free]
    rfl
  · exact getLast?_segments_join_of_free free directory

/-- The last piece is solid also with another one in front. -/
theorem Reaches.solid_cons {files : FileSystem} {pieces : List Piece} {between path : Path} {segments : List Text}
    {text : Text} (reaches : Reaches pieces between path segments) (isFile : files.isFile path = true)
    (ends : between.segments.getLast? = some text) : ∀ last ∈ (text :: segments).getLast?, Path.isVoid last = false := by
  cases segments with
  | nil =>
    have solid := FileSystem.solid_of_isFile isFile
    rw [reaches.stays rfl] at solid
    rintro last ⟨⟩
    exact solid text ends
  | cons next segments =>
    rw [List.getLast?_cons_cons]
    exact reaches.solid

/-- A piece in front of those that reach a file. -/
theorem Reaches.cons {files : FileSystem} {piece : Piece} {pieces : List Piece} {directory between path : Path}
    {text : Text} {segments : List Text} (reaches : Reaches pieces between path segments)
    (spells : Spells (piece :: pieces) (text :: segments)) (isFile : files.isFile path = true)
    (steps : between.steps = directory.steps ++ (Path.component? text).toList)
    (ends : between.segments.getLast? = some text) (filled : directory.isHere = true → Filled (text :: segments)) :
    Reaches (piece :: pieces) directory path (text :: segments) where
  spells
  steps := steps_onward steps reaches.steps
  filled
  solid := reaches.solid_cons isFile ends
  stays := by simp

/-- Whatever file a pattern leads to is reached along pieces that it spells. -/
theorem Leads.exists_reaches {files : FileSystem} {pieces : List Piece} {directory path : Path}
    (leads : Leads files pieces directory path) (free : SlashFree pieces) (isFile : files.isFile path = true) :
    ∃ segments, Reaches pieces directory path segments := by
  induction leads with
  | done => exact ⟨[], .nil, by simp, fun _ => by simp [Filled], by simp, fun _ => rfl⟩
  | @literal text pieces directory path isThere _ ih =>
    have slash := free text List.mem_cons_self
    obtain ⟨segments, reaches⟩ := ih free.tail isFile
    refine ⟨text :: segments, reaches.cons (.literal reaches.spells) isFile (steps_child slash directory)
      (getLast?_segments_child slash directory) fun here => ?_⟩
    by_cases dot : text = ['.']
    · rw [dot, filled_dot_iff]
      refine reaches.filled ?_
      rw [child, if_pos here, isHere_of_free slash]
      exact decide_eq_true dot
    · rw [filled_cons_iff dot]
      rintro rfl
      simp [Glob.isThere, isDots, child, here, FileSystem.exists?, FileSystem.locate, Except.toOption] at isThere
  | @dots tokens location dots pieces directory path found matching _ ih =>
    have slash := free_of_mem_dotsMatching matching
    obtain ⟨segments, reaches⟩ := ih free.tail isFile
    refine ⟨dots :: segments, reaches.cons (.dots matching reaches.spells) isFile (steps_join_of_free slash directory)
      (getLast?_segments_join_of_free slash directory) fun here => ?_⟩
    obtain ⟨_, rfl | rfl, _⟩ := mem_dotsMatching_iff.mp matching
    · exact (filled_cons_iff (by simp) segments).mpr (by simp)
    · rw [filled_dot_iff]
      refine reaches.filled ?_
      obtain ⟨starts, none⟩ := (Path.isHere_iff directory).mp here
      rw [Path.isHere_iff, startsHere_join_of_free slash (.inl (text_ne_nil_of_directory? found)),
        steps_join_of_free slash, none]
      exact ⟨starts, rfl⟩
  | @name tokens location name pieces directory path _ _ accepted _ ih =>
    obtain ⟨segments, reaches⟩ := ih free.tail isFile
    exact ⟨name.text :: segments, reaches.cons (.wildcard accepted reaches.spells) isFile
      (steps_child name.free directory) (getLast?_segments_child name.free directory)
      fun _ => (filled_cons_iff name.ne_here segments).mpr name.ne_nil⟩
  | repeated _ ih =>
    obtain ⟨segments, reaches⟩ := ih free.tail isFile
    exact ⟨segments, .repeated reaches.spells, reaches.steps, reaches.filled, reaches.solid, reaches.stays⟩
  | @entry location way name piece pieces directory path _ _ other last accepted _ ih =>
    obtain ⟨above, rfl⟩ := List.getLast?_eq_some_iff.mp last
    obtain ⟨segments, reaches⟩ := ih free.tail.tail isFile
    have ends : (descend directory (above ++ [name])).segments.getLast? = some name.text := by
      rw [descend, List.foldl_append]
      exact getLast?_segments_child name.free _
    refine ⟨above.map (·.text) ++ name.text :: segments, .entry other accepted reaches.spells, ?_,
      fun _ => filled_names above name segments, ?_, by simp⟩
    · rw [reaches.steps, steps_descend, List.append_assoc, List.filterMap_append, filterMap_names,
        List.filterMap_cons_some name.component?]
      simp
    · rw [List.getLast?_append_of_ne_nil _ (by simp)]
      exact reaches.solid_cons isFile ends
  | @directories location way directory _ _ isDirectory =>
    obtain ⟨_, found⟩ := Option.isSome_iff_exists.mp isDirectory
    obtain ⟨_, _, alsoFound⟩ := FileSystem.isFile_iff.mp isFile
    cases (FileSystem.directory?_eq_some_iff.mp found).symm.trans alsoFound

end PatternLint.Glob
