import PatternLint.Config.Effective
import PatternLint.Proofs.InsideBase
import PatternLint.Proofs.ReportNames

/-!
# What the default pattern finds

The default pattern stands for the files below a base whose last name ends in a word (`exists_way_of_found`,
`exists_found_of_way`), and such a file is named by the names on the way to it (`nameFrom_of_steps`). So each of these
files has just one entry, and the names of the entries ascend (`defaultPatterns_exact`).
-/
namespace PatternLint

namespace Glob

/-- What two stars and a star in front of a word stand for: a way whose last name ends in the word. -/
theorem Covers.exists_way {word : Text} {steps : List Path.Component}
    (covers : Covers [.directories, .wildcard (endingIn word)] steps) :
    ∃ (above : Location) (name : Name), steps = (above ++ [name]).map (fun name => .name name.text) ∧
      word <:+ name.text := by
  cases covers with
  | cons stars onward =>
    cases stars with
    | directories above =>
      cases onward with
      | cons own none =>
        cases none
        cases own with
        | @name _ name accepted =>
          exact ⟨above, name, by rw [List.map_append, List.append_nil]; rfl, (accepts_endingIn_iff word _).mp accepted⟩
        | dots matching => cases (mem_dotsMatching_iff.mp matching).1

end Glob

/-! ### Locations of paths -/

theorem Name.mapM_ofText?_eq_some_iff {texts : List Text} {location : Location} :
    texts.mapM Name.ofText? = some location ↔ texts = location.map (·.text) := by
  induction texts generalizing location with
  | nil => rw [List.mapM_nil, Option.pure_def, Option.some.injEq, eq_comm, eq_comm (a := []), List.map_eq_nil_iff]
  | cons text texts ih =>
    simp only [List.mapM_cons, Option.pure_def, Option.bind_eq_bind, Option.bind_eq_some_iff, Option.some.injEq]
    constructor
    · rintro ⟨name, named, rest, onward, rfl⟩
      rw [Name.ofText?_eq_some_iff.mp named, ih.mp onward, List.map_cons]
    · intro same
      cases location with
      | nil => cases same
      | cons name rest =>
        obtain ⟨own, onward⟩ := List.cons.inj same
        exact ⟨name, Name.ofText?_eq_some_iff.mpr own, rest, ih.mpr onward, rfl⟩

/-- The steps of a path are named by their texts. -/
theorem Path.filterMap_text_steps (path : Path) : (path.steps.map (·.text)).filterMap component? = path.steps := by
  have named : path.steps.filterMap (fun component => component? component.text) = path.steps.filterMap some :=
    List.filterMap_congr fun component member => (isStep_of_mem_steps member).component?_text
  rw [List.filterMap_map]
  exact named.trans List.filterMap_some

theorem Path.location?_eq_some_iff {path : Path} {location : Location} :
    path.location? = some location ↔ path.steps = location.map fun name => .name name.text := by
  rw [location?, solid_segments, Name.mapM_ofText?_eq_some_iff]
  constructor
  · intro same
    rw [← path.filterMap_text_steps, same, Glob.filterMap_names]
  · intro same
    rw [same, List.map_map]
    rfl

theorem Name.map_injective :
    Function.Injective fun way : Location => way.map fun name => Path.Component.name name.text :=
  List.map_injective_iff.mpr fun _ _ same => Name.text_injective (Path.Component.name.inj same)

/-- A walk along names leads down by them. -/
theorem FileSystem.exists_way_of_walk {files : FileSystem} {location target : Location} {steps : List Path.Component}
    (own : ∀ component ∈ steps, component.IsStep) (named : ∀ component ∈ steps, component.isName = true)
    (walked : files.walk location (steps.map (·.text)) = .ok target) :
    ∃ way : Location, steps = way.map (fun name => .name name.text) ∧ target = location ++ way := by
  induction steps generalizing location with
  | nil =>
    cases walked
    exact ⟨[], rfl, (List.append_nil _).symm⟩
  | cons component steps ih =>
    rw [List.forall_mem_cons] at own named
    obtain ⟨next, stepped, onward⟩ := walk_cons_eq_ok_iff.mp walked
    cases component with
    | name text =>
      obtain ⟨solid, other, free⟩ : Path.isVoid text = false ∧ text ≠ ['.', '.'] ∧ '/' ∉ text := by
        cases own.1 with
        | name solid other free => exact ⟨solid, other, free⟩
      have unvoid : text ≠ [] ∧ text ≠ ['.'] := by simpa [Path.isVoid] using solid
      have isName : isEntryName text = true :=
        (isEntryName_iff text).mpr ⟨unvoid.1, free, nul_of_step stepped, unvoid.2, other⟩
      have led := step_name (entry?_of_step stepped) ⟨text, isName⟩
      cases stepped.symm.trans led
      obtain ⟨way, rfl, rfl⟩ := ih own.2 named.2 onward
      exact ⟨⟨text, isName⟩ :: way, rfl, by rw [List.append_assoc, List.singleton_append]⟩
    | root => cases named.1
    | here => cases named.1
    | up => cases named.1

/-! ### Bases -/

/-- Whether a path is made of ordinary names, be it from the top or not. The empty path is one. -/
def Path.isNamed (path : Path) : Bool := path.components.all fun component => component = .root || component.isName

namespace Targets

theorem startsHere_of_isNamed {base : Path} (named : base.isNamed = true) : base.startsHere = false := by
  rw [Bool.eq_false_iff, Ne, ← Path.here_mem_components_iff]
  intro member
  cases List.all_eq_true.mp named .here member

theorem isName_of_isNamed {base : Path} (named : base.isNamed = true) :
    ∀ component ∈ base.steps, component.isName = true := by
  intro component member
  have inBase : component ∈ base.components := by
    rw [Path.components_eq]
    exact List.mem_append_right _ member
  have own := List.all_eq_true.mp named component inBase
  cases Path.isStep_of_mem_steps member with
  | up => cases own
  | name => rfl

/-- From the current directory the names are all there is. -/
theorem isOrdinary_of_isNamed {base : Path} (named : base.isNamed = true) (relative : base.isAbsolute = false) :
    base.isOrdinary = true := by
  rw [Path.isOrdinary, Path.components_of_not_startsHere (startsHere_of_isNamed named),
    Path.dotless_of_relative relative]
  exact List.all_eq_true.mpr (isName_of_isNamed named)

section
variable {base : Path} (spelled : base = ⟨['.']⟩ ∨ base.isNamed = true)
include spelled

theorem isName_of_spelled : ∀ component ∈ base.steps, component.isName = true := by
  rcases spelled with rfl | named
  · exact nofun
  · exact isName_of_isNamed named

theorem filled_of_spelled (filled : base.text ≠ []) (relative : base.isAbsolute = false) (way : Location)
    (name : Name) : Glob.Filled (base.openSegments ++ (way.map (·.text) ++ [name.text])) := by
  rcases spelled with rfl | named
  · exact (Glob.filled_dot_iff _).mpr (Glob.filled_names way name [])
  · refine Glob.filled_of_first ?_
    rw [List.map_append, List.head?_append_of_ne_nil _ (by simp [Path.openSegments_ne_nil filled])]
    exact isVoid_head?_of_isOrdinary (isOrdinary_of_isNamed named relative) filled

end

/-! ### The default pattern below a base -/

/-- Whether there is a file on a way below a base. -/
def FileBelow (files : FileSystem) (base : Path) (way : Location) : Prop :=
  ∃ location contents, base.location? = some location ∧
    files.entry? (files.start base ++ location ++ way) = some (.file contents)

/-- Whether the last name on a way ends in a word. -/
def EndsIn (word : Text) (way : Location) : Prop := ∃ last ∈ way.getLast?, word <:+ last.text

/-- The word that the default pattern asks for. -/
def ending : Text := ".strudel".toList

/-- The default pattern. -/
def defaultPath : Path := ⟨"**/*.strudel".toList⟩

theorem isAbsolute_defaultPath : defaultPath.isAbsolute = false := by decide

theorem isOpen_defaultPath : defaultPath.segments.getLast? ≠ some [] := by decide

theorem undotted_defaultPath : Glob.Undotted defaultPath := by decide

theorem piecesOf_defaultPath :
    Glob.piecesOf defaultPath.segments = .ok [.directories, .wildcard (Glob.endingIn ending)] := by cbv

/-- What the default pattern is read as below a base: its two components behind pieces that are followed as they are
    written. -/
structure IsDefault (base : Path) (glob : Glob.Pattern) (lead : List Text) : Prop where
  side : glob.isAbsolute = base.isAbsolute
  isOpen : glob.onlyDirectories = false
  pieces : glob.pieces = lead.map .literal ++ [.directories, .wildcard (Glob.endingIn ending)]
  steps : lead.filterMap Path.component? = base.steps
  slashFree : Glob.SlashFree glob.pieces
  filled : base.isAbsolute = false → ∀ (way : Location) (name : Name),
    Glob.Filled (lead ++ (way.map (·.text) ++ [name.text]))

section
variable {base : Path} (plain : Glob.isPattern base.text = false)
include plain

theorem piecesOf_openSegments :
    Glob.piecesOf base.openSegments = .ok (base.openSegments.map .literal) :=
  Glob.piecesOf_map_literal fun _ member =>
    Glob.isPattern_of_mem_segments plain (Path.mem_segments_of_mem_openSegments member)

theorem exists_isDefault_of_isAbsolute (absolute : base.isAbsolute = true) : ∃ glob lead,
    Glob.Pattern.ofText (base.join defaultPath).text = .ok glob ∧ IsDefault base glob lead := by
  have filled := Path.text_ne_nil_of_isAbsolute absolute
  have segments := Path.segments_join isAbsolute_defaultPath filled
  have isOpen := isOpen_defaultPath
  -- the first piece is the empty one in front of the slash
  obtain ⟨lead, parts⟩ : ∃ lead, base.openSegments = [] :: lead := by
    have first := (Path.head?_openSegments filled).trans (Path.head?_segments_of_isAbsolute absolute)
    exact List.head?_eq_some_iff.mp first
  have inBase := piecesOf_openSegments plain
  rw [parts] at inBase segments
  obtain ⟨_, pieces, _, inLead, same⟩ := Glob.piecesOf_cons_eq_ok_iff.mp inBase
  rw [(List.cons.inj same).2.symm] at inLead
  have read : Glob.piecesOf (base.join defaultPath).segments.tail =
      .ok (lead.map .literal ++ [.directories, .wildcard (Glob.endingIn ending)]) := by
    rw [segments]
    exact Glob.piecesOf_append_eq_ok_iff.mpr ⟨_, _, inLead, piecesOf_defaultPath, rfl⟩
  obtain ⟨glob, parsed, side, closed, own⟩ := Glob.exists_ofText_of_absolute
    ((Path.isAbsolute_join isAbsolute_defaultPath filled).trans absolute)
    (by rwa [segments, List.getLast?_append_of_ne_nil _ (Path.segments_ne_nil _)]) read
  refine ⟨glob, lead, parsed, side.trans absolute.symm, closed, own, ?_, Glob.free_of_ofText parsed, ?_⟩
  · rw [← Path.filterMap_openSegments, parts]
    rfl
  · intro relative
    cases absolute.symm.trans relative

theorem exists_isDefault_of_relative (spelled : base = ⟨['.']⟩ ∨ base.isNamed = true)
    (ground : base.isAbsolute = false) : ∃ glob lead,
      Glob.Pattern.ofText (base.join defaultPath).text = .ok glob ∧ IsDefault base glob lead := by
  by_cases empty : base.text = []
  · rw [Path.join_of_empty empty]
    have read : Glob.Pattern.ofText defaultPath.text =
        .ok ⟨false, [.directories, .wildcard (Glob.endingIn ending)], false⟩ := by cbv
    have none : base.steps = [] := by
      obtain ⟨text⟩ := base
      cases empty
      rfl
    exact ⟨_, [], read, ground.symm, rfl, rfl, none.symm, @Glob.free_of_ofText defaultPath _ read,
      fun _ way name => Glob.filled_names way name []⟩
  · have inBase := piecesOf_openSegments plain
    have inPath : Glob.piecesOf defaultPath.openSegments = .ok [.directories, .wildcard (Glob.endingIn ending)] := by
      rw [Path.openSegments, if_neg isOpen_defaultPath]
      exact piecesOf_defaultPath
    obtain ⟨glob, parsed⟩ := Glob.exists_ofText_join isAbsolute_defaultPath empty ground isOpen_defaultPath inBase
      piecesOf_defaultPath
    obtain ⟨lead, rest, alsoInBase, alsoInPath, pieces⟩ :=
      Glob.pieces_of_join isAbsolute_defaultPath empty ground parsed
    cases inBase.symm.trans alsoInBase
    cases inPath.symm.trans alsoInPath
    have side := (Glob.pieces_of_ofText parsed).1
    exact ⟨glob, base.openSegments, parsed, side.trans (Path.isAbsolute_join isAbsolute_defaultPath empty),
      (Glob.onlyDirectories_join_iff isAbsolute_defaultPath empty parsed).mpr isOpen_defaultPath, pieces,
      Path.filterMap_openSegments base, Glob.free_of_ofText parsed, filled_of_spelled spelled empty⟩

end

theorem exists_isDefault {base : Path} (plain : Glob.isPattern base.text = false)
    (spelled : base = ⟨['.']⟩ ∨ base.isNamed = true) : ∃ glob lead,
      Glob.Pattern.ofText (base.join defaultPath).text = .ok glob ∧ IsDefault base glob lead := by
  cases absolute : base.isAbsolute with
  | true => exact exists_isDefault_of_isAbsolute plain absolute
  | false => exact exists_isDefault_of_relative plain spelled absolute

/-- What matches the default pattern is a file on a way below the base, and the way ends in the word. -/
theorem exists_way_of_found {base : Path} (spelled : base = ⟨['.']⟩ ∨ base.isNamed = true) {files : FileSystem}
    {glob : Glob.Pattern} {lead : List Text} (own : IsDefault base glob lead) {path : Path}
    (found : path ∈ glob.files files) : ∃ way, FileBelow files base way ∧ EndsIn ending way ∧
      path.isAbsolute = base.isAbsolute ∧ path.steps = base.steps ++ way.map fun name => .name name.text := by
  obtain ⟨_, isFile, leads⟩ := (Glob.mem_files_iff files glob path).mp found
  obtain ⟨side, covered, covers, steps⟩ := leads.covers own.slashFree
  have top : Path.steps ⟨if glob.isAbsolute then ['/'] else ['.']⟩ = [] := by split <;> rfl
  have same : Path.isAbsolute ⟨if glob.isAbsolute then ['/'] else ['.']⟩ = base.isAbsolute := by
    rw [← own.side]
    cases glob.isAbsolute <;> rfl
  replace side := side.trans same
  rw [own.pieces] at covers
  obtain ⟨first, second, rfl, inLead, inRest⟩ := covers.of_append
  rw [top, List.nil_append, inLead.of_literals, own.steps] at steps
  obtain ⟨above, name, rfl, ends⟩ := inRest.exists_way
  refine ⟨above ++ [name], ?_, ⟨name, List.getLast?_concat, ends⟩, side, steps⟩
  -- the file is reached by the steps of its path, and these are first the steps of the base
  obtain ⟨location, contents, located⟩ := FileSystem.isFile_iff.mp isFile
  obtain ⟨_, _, walked, there⟩ := FileSystem.locate_eq_ok_iff.mp located
  have solid := FileSystem.walk_solid walked
  rw [Path.solid_segments, FileSystem.start, side, ← FileSystem.start] at solid
  have names : ∀ component ∈ path.steps, component.isName = true := by
    intro component member
    rw [steps, List.mem_append] at member
    rcases member with inBase | onWay
    · exact isName_of_spelled spelled component inBase
    · obtain ⟨_, _, rfl⟩ := List.mem_map.mp onWay
      rfl
  obtain ⟨whole, same, rfl⟩ := FileSystem.exists_way_of_walk (fun _ => Path.isStep_of_mem_steps) names solid
  obtain ⟨start, rest, rfl, first, second⟩ := List.map_eq_append_iff.mp (same.symm.trans steps)
  cases Name.map_injective second
  refine ⟨start, contents, Path.location?_eq_some_iff.mpr first.symm, ?_⟩
  rw [List.append_assoc]
  exact there

/-- The directory that a pattern starts from is found where there is something below it. -/
theorem locate_start {files : FileSystem} {base : Path} {way : Location} (some_way : way ≠ [])
    (there : files.holds (files.start base ++ way) = true) :
    files.locate ⟨if base.isAbsolute then ['/'] else ['.']⟩ = .ok (files.start base, .directory) := by
  rw [FileSystem.start] at there ⊢
  split
  · exact files.locate_top
  · next relative =>
    rw [if_neg relative] at there
    exact FileSystem.locate_dot (FileSystem.entry?_of_holds some_way there)

/-- A file on a way below the base that ends in the word matches the default pattern. -/
theorem exists_found_of_way {base : Path} {files : FileSystem} {glob : Glob.Pattern} {lead : List Text}
    (own : IsDefault base glob lead) {way : Location} (below : FileBelow files base way) (ends : EndsIn ending way) :
    ∃ path ∈ glob.files files, path.steps = base.steps ++ way.map fun name => .name name.text := by
  obtain ⟨location, contents, placed, there⟩ := below
  obtain ⟨name, last, ends⟩ := ends
  obtain ⟨above, rfl⟩ := List.getLast?_eq_some_iff.mp last
  rw [List.append_assoc] at there
  have spells : Glob.Spells glob.pieces (lead ++ (above.map (·.text) ++ [name.text])) := by
    rw [own.pieces]
    exact (Glob.Spells.literals lead).append (.entry nofun ((Glob.accepts_endingIn_iff _ _).mpr ends) .nil)
  have steps : (lead ++ (above.map (·.text) ++ [name.text])).filterMap Path.component? =
      base.steps ++ (above ++ [name]).map fun name => .name name.text := by
    rw [List.filterMap_append, own.steps, ← List.map_singleton, ← List.map_append, Glob.filterMap_names]
  have names : base.steps ++ ((above ++ [name]).map fun name => .name name.text) =
      (location ++ (above ++ [name])).map fun name => .name name.text := by
    rw [Path.location?_eq_some_iff.mp placed, ← List.map_append]
  have top := locate_start (by simp) (FileSystem.holds_of_eq_some there)
  have walked : files.walk (files.start base) (lead ++ (above.map (·.text) ++ [name.text])) =
      .ok (files.start base ++ (location ++ (above ++ [name]))) := by
    refine FileSystem.walk_of_names (steps.trans names) there ?_
    rw [← List.append_assoc, List.getLast?_concat]
    rintro _ ⟨⟩
    exact name.solid
  have filled : Path.isHere ⟨if base.isAbsolute then ['/'] else ['.']⟩ = true →
      Glob.Filled (lead ++ (above.map (·.text) ++ [name.text])) := by
    intro here
    refine own.filled ?_ above name
    by_contra absolute
    rw [if_pos (by simpa using absolute)] at here
    cases here
  obtain ⟨path, leads, reached, onward⟩ :=
    Glob.exists_leads spells (spells.free own.slashFree) top filled walked there
  refine ⟨path, (Glob.mem_files_iff files glob path).mpr
    ⟨own.isOpen, FileSystem.isFile_iff.mpr ⟨_, _, reached⟩, ?_⟩, ?_⟩
  · rwa [own.side]
  · have none : Path.steps ⟨if base.isAbsolute then ['/'] else ['.']⟩ = [] := by split <;> rfl
    rw [onward, none, steps, List.nil_append]

/-! ### Names of what is found -/

/-- A path that goes on from a base by names is named by them. -/
theorem nameFrom_of_steps {base : Path} (spelled : base = ⟨['.']⟩ ∨ base.isNamed = true) {path : Path}
    (side : path.isAbsolute = base.isAbsolute) (there : path.startsHere = false) {way : Location} (some_way : way ≠ [])
    (steps : path.steps = base.steps ++ way.map fun name => .name name.text) :
    (⟨nameFrom base path⟩ : Path) = .ofComponents (way.map fun name => .name name.text) := by
  have components := Path.components_of_not_startsHere there
  rw [nameFrom, Path.relativeTo?, if_pos side, components, Path.dotless_eq, side, steps]
  rcases spelled with rfl | named
  · obtain ⟨name, way, rfl⟩ := List.exists_cons_of_ne_nil some_way
    rfl
  · rw [Path.components_of_not_startsHere (startsHere_of_isNamed named), Path.dotless_eq, ← List.append_assoc,
      Path.stepsFrom_append]
    rfl

/-- The names of a report ascend. -/
theorem pairwise_isLE_names (files : FileSystem) (base : Path) (targets : List Path) :
    ((lint files base targets).files.map (·.file)).Pairwise fun a b => (compare a b).isLE = true := by
  refine List.pairwise_map.mpr (List.pairwise_mergeSort (fun a b c => Std.TransCmp.isLE_trans) (fun a b => ?_) _)
  have swapped : compare b.file a.file = (compare a.file b.file).swap := Std.OrientedCmp.eq_swap
  rw [swapped, Bool.or_eq_true]
  cases compare a.file b.file <;> simp

/-- They are the names of the targets. -/
theorem names_perm (files : FileSystem) (base : Path) (targets : List Path) :
    ((lint files base targets).files.map (·.file)).Perm (targets.map (nameFrom base)) := by
  have own : targets.map (nameFrom base) = (targets.map (entry files base)).map (·.file) := by
    rw [List.map_map]
    exact List.map_congr_left fun target _ => (entry_file files base target).symm
  rw [own]
  exact (List.mergeSort_perm _ _).map _

/-- Names that differ ascend strictly. -/
theorem pairwise_lt_names {files : FileSystem} {base : Path} {targets : List Path}
    (distinct : (targets.map (nameFrom base)).Nodup) :
    ((lint files base targets).files.map (·.file)).Pairwise fun a b => compare a b = .lt := by
  have apart := (names_perm files base targets).nodup_iff.mpr distinct
  refine ((pairwise_isLE_names files base targets).and apart).imp fun {a b} ⟨below, other⟩ => ?_
  cases outcome : compare a b with
  | lt => rfl
  | eq => exact absurd (Std.LawfulEqCmp.compare_eq_iff_eq.mp outcome) other
  | gt => simp [outcome] at below

theorem steps_ofNames (way : Location) :
    (Path.ofComponents (way.map fun name => .name name.text)).steps = way.map fun name => .name name.text := by
  have own : ∀ component ∈ way.map (fun name => Path.Component.name name.text), component.IsStep := by
    intro component member
    obtain ⟨name, _, rfl⟩ := List.mem_map.mp member
    exact Path.isStep_of_component? name.free name.component?
  rw [Path.steps_ofComponents fun component member => .inr (own component member), Path.filter_ne_here_of_isStep own]

/-- A target on a way below a base: that of a file, and named by the way. -/
structure OnWay (files : FileSystem) (base target : Path) (way : Location) : Prop where
  below : FileBelow files base way
  ends : EndsIn ending way
  side : target.isAbsolute = base.isAbsolute
  there : target.startsHere = false
  steps : target.steps = base.steps ++ way.map fun name => .name name.text
  named : (⟨nameFrom base target⟩ : Path) = .ofComponents (way.map fun name => .name name.text)

/-- Targets of one name have the same components. -/
theorem OnWay.components_eq {files : FileSystem} {base a b : Path} {wayA wayB : Location}
    (first : OnWay files base a wayA) (second : OnWay files base b wayB)
    (same : nameFrom base a = nameFrom base b) : a.components = b.components := by
  have ways := congrArg (fun name => Path.steps ⟨name⟩) same
  simp only [first.named, second.named, steps_ofNames] at ways
  rw [Path.components_of_not_startsHere first.there, Path.components_of_not_startsHere second.there, Path.dotless_eq,
    Path.dotless_eq, first.side, second.side, first.steps, second.steps, ways]

theorem exists_onWay {base : Path} (plain : Glob.isPattern base.text = false)
    (spelled : base = ⟨['.']⟩ ∨ base.isNamed = true) {files : FileSystem} {glob : Glob.Pattern} {lead : List Text}
    (own : IsDefault base glob lead) (parsed : Glob.Pattern.ofText (base.join defaultPath).text = .ok glob)
    {path : Path} (found : path ∈ glob.files files) : ∃ way, OnWay files base path way := by
  obtain ⟨way, below, ends, side, steps⟩ := exists_way_of_found spelled own found
  have undotted := Glob.undotted_join (Glob.undotted_of_plain plain) undotted_defaultPath
  have there := Glob.startsHere_of_undotted parsed undotted found
  have some_way : way ≠ [] := by
    rintro rfl
    obtain ⟨_, none, _⟩ := ends
    cases none
  exact ⟨way, below, ends, side, there, steps, nameFrom_of_steps spelled side there some_way steps⟩

/-- Below the current directory or a path of ordinary names without wildcards, the report over the default pattern has
    an entry for each file whose last name ends in the word, and for nothing else. The entries are named by the ways
    from the base, and their names ascend strictly. -/
theorem defaultPatterns_exact (files : FileSystem) {base : Path} (plain : Glob.isPattern base.text = false)
    (spelled : base = ⟨['.']⟩ ∨ base.isNamed = true) :
    ∃ targets, collect files base Config.defaultPatterns = .ok targets ∧
      ((lint files base targets).files.map (·.file)).Pairwise (fun a b => compare a b = .lt) ∧
      ∀ name, name ∈ (lint files base targets).files.map (·.file) ↔ ∃ way, FileBelow files base way ∧
        EndsIn ".strudel".toList way ∧ name = List.intercalate ['/'] (way.map (·.text)) := by
  obtain ⟨glob, lead, parsed, own⟩ := exists_isDefault plain spelled
  have wild : Glob.isPattern defaultPath.text = true := by decide
  have listed : Config.defaultPatterns = [defaultPath.text] := rfl
  have found : ofPattern files base defaultPath.text = .ok (glob.files files) := by
    rw [ofPattern, if_pos wild, parsed]
  have collected : collect files base Config.defaultPatterns = .ok (Ordered.ofList Path.order (glob.files files)) := by
    rw [listed, collect, ofPatterns, found, ofPatterns]
    dsimp only
    rw [List.append_nil]
  have onWay (target : Path) (member : target ∈ Ordered.ofList Path.order (glob.files files)) :
      ∃ way, OnWay files base target way := exists_onWay plain spelled own parsed (Ordered.mem_of_mem_ofList member)
  have named {target : Path} {way : Location} (here : OnWay files base target way) :
      nameFrom base target = List.intercalate ['/'] (way.map (·.text)) := by
    rw [(Path.mk.inj here.named : nameFrom base target = _), List.map_map]
    rfl
  refine ⟨_, collected, pairwise_lt_names ?_, fun name => ?_⟩
  · have apart := nodup_components collected
    refine apart.of_map.map_on fun a inTargets b alsoInTargets same => ?_
    obtain ⟨_, first⟩ := onWay a inTargets
    obtain ⟨_, second⟩ := onWay b alsoInTargets
    exact List.inj_on_of_nodup_map apart inTargets alsoInTargets (first.components_eq second same)
  · rw [(names_perm files base _).mem_iff, List.mem_map]
    constructor
    · rintro ⟨target, member, rfl⟩
      obtain ⟨way, here⟩ := onWay target member
      exact ⟨way, here.below, here.ends, named here⟩
    · rintro ⟨way, below, ends, rfl⟩
      obtain ⟨path, found, steps⟩ := exists_found_of_way own below ends
      obtain ⟨target, member, same⟩ : ∃ target ∈ Ordered.ofList Path.order (glob.files files),
          Path.order target path = .eq := Ordered.exists_mem_ofList found
      obtain ⟨other, here⟩ := onWay target member
      -- the target is spelled by the same components, so it lies on the same way
      have sameSteps := Path.steps_eq_of_dotless
        ((Path.components_eq_iff target path).mp ((Path.order_eq_iff target path).mp same)).2
      rw [here.steps, steps] at sameSteps
      cases Name.map_injective (List.append_cancel_left sameSteps)
      exact ⟨target, member, named here⟩

/-- A file of the bare word in a hidden directory below a named base. -/
theorem defaultPatterns_exact_hidden :
    Glob.isPattern ['x'] = false ∧ Path.isNamed ⟨['x']⟩ = true ∧
    ∃ targets, collect (.ofLocations [[⟨['x'], rfl⟩, ⟨".h".toList, rfl⟩, ⟨".strudel".toList, rfl⟩]]) ⟨['x']⟩
        Config.defaultPatterns = .ok targets ∧
      ".h/.strudel".toList ∈ (lint (.ofLocations [[⟨['x'], rfl⟩, ⟨".h".toList, rfl⟩, ⟨".strudel".toList, rfl⟩]])
        ⟨['x']⟩ targets).files.map (·.file) := by
  have plain : Glob.isPattern (Path.mk ['x']).text = false := by decide
  have named : Path.isNamed ⟨['x']⟩ = true := by decide
  obtain ⟨targets, collected, _, names⟩ := defaultPatterns_exact
    (.ofLocations [[⟨['x'], rfl⟩, ⟨".h".toList, rfl⟩, ⟨".strudel".toList, rfl⟩]]) plain (.inr named)
  refine ⟨plain, named, targets, collected, (names _).mpr ⟨[⟨".h".toList, rfl⟩, ⟨".strudel".toList, rfl⟩], ?_, ?_, ?_⟩⟩
  · exact ⟨[⟨['x'], rfl⟩], .empty, by decide, rfl⟩
  · exact ⟨_, rfl, List.suffix_rfl⟩
  · decide

end Targets
end PatternLint
