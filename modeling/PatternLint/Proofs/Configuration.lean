import Mathlib.Data.List.Nodup
import PatternLint.Config.Effective
import PatternLint.Proofs.CommandLines
import PatternLint.Proofs.Root

/-!
# The configuration in effect

The configuration of a directory is that of the first of its configuration files, and if this cannot be read or
understood, an error: no other is tried (`load_eq_iff`). So it does not depend on the files after the first
(`load_of_sameBut`). What is in effect is chosen setting by setting, an override before the file and that before the
default (`resolve_eq_iff`).
-/
namespace PatternLint

namespace FileSystem

/-- File systems that differ at most at a place and below it. -/
structure SameBut (place : Location) (files other : FileSystem) : Prop where
  here : other.here = files.here
  elsewhere : ∀ location, ¬ place <+: location → other.entry? location = files.entry? location

variable {files other : FileSystem} {path : Path} {place seat : Location} {name : Name}

/-- No path leads through what is no directory, so one that leads to a directory still does if nothing else differs. -/
theorem SameBut.seat? (same : SameBut place files other) (seated : files.seat? path = some seat)
    (solid : files.entry? place ≠ some .directory) : other.seat? path = some seat := by
  refine seat?_of_entry? seated same.here fun passed onTrail => ?_
  have there := entry?_of_mem_trail seated onTrail
  rw [same.elsewhere passed fun into => solid (entry?_of_above there into), there]

/-- A file system with something else at a place, or something new. -/
def put (files : FileSystem) (place : Location) (entry : Entry) : FileSystem :=
  { files with entries := (place, entry) :: files.entries }

theorem entry?_eq (files : FileSystem) (location : Location) : files.entry? location =
    if location = [] ∨ ∃ entry ∈ files.entries, isBelow location entry.1 = true then some .directory
    else (files.entries.find? (·.1 = location)).map (·.2) := by
  simp only [Bool.or_eq_true, entry?, List.isEmpty_iff, List.any_eq_true]

theorem entry?_put {location : Location} (apart : isBelow location place = false) (other : place ≠ location)
    (entry : Entry) : FileSystem.entry? (files.put place entry) location = files.entry? location := by
  rw [entry?_eq, entry?_eq]
  refine if_congr ?_ rfl (congrArg (Option.map Prod.snd) ?_)
  · simp [put, apart]
  · exact List.find?_cons_of_neg (by simpa using other)

/-- What is put into a directory changes nothing elsewhere. -/
theorem sameBut_put (there : files.entry? seat = some .directory) (name : Name) (entry : Entry) :
    SameBut (seat ++ [name]) files (files.put (seat ++ [name]) entry) where
  here := rfl
  elsewhere location outside := by
    by_cases above : location <+: seat
    · -- above the place there are directories in both
      have own := entry?_of_above there above
      obtain ⟨way, rfl⟩ := above
      have also : (files.put (location ++ way ++ [name]) entry).holds (location ++ (way ++ [name])) = true := by
        rw [holds_iff]
        exact .inr ⟨_, List.mem_cons_self, List.append_assoc location way [name] ▸ List.prefix_rfl⟩
      rw [entry?_of_holds (by simp) also, own]
    · have apart : isBelow location (seat ++ [name]) = false := by
        rw [Bool.eq_false_iff, Ne, isBelow_iff]
        rintro ⟨way, some_way, same⟩
        obtain ⟨way, last, rfl⟩ := List.eq_nil_or_concat' way |>.resolve_left some_way
        rw [← List.append_assoc] at same
        exact above ((List.append_inj' same rfl).1 ▸ List.prefix_append _ _)
      have other : seat ++ [name] ≠ location := fun same => outside (same ▸ List.prefix_rfl)
      exact entry?_put apart other entry

/-- Whether a path leads to the same in two file systems: to nothing, or to what reads the same. -/
structure SameAt (path : Path) (files other : FileSystem) : Prop where
  exists? : other.exists? path = files.exists? path
  read : files.exists? path = true → other.read path = files.read path

theorem sameAt_of_locate (same : ∀ location entry, other.locate path = .ok (location, entry) ↔
    files.locate path = .ok (location, entry)) : SameAt path files other where
  exists? := by
    rw [Bool.eq_iff_iff, exists?_iff, exists?_iff]
    simp only [same]
  read there := by
    obtain ⟨location, entry, found⟩ := exists?_iff.mp there
    rw [FileSystem.read, FileSystem.read, found, (same location entry).mpr found]

theorem sameAt_join (seated : files.seat? path = some seat) (also : other.seat? path = some seat)
    (same : other.entry? (seat ++ [name]) = files.entry? (seat ++ [name])) :
    SameAt (path.join ⟨name.text⟩) files other := by
  refine sameAt_of_locate fun location entry => ?_
  rw [locate_join_of_seat? seated, locate_join_of_seat? also]
  refine and_congr_right ?_
  rintro rfl
  rw [same]

end FileSystem

namespace Config

/-! ### Which file counts -/

/-- Whether one configuration file comes before another. -/
def Precedes (one other : Text × Format) : Prop := fileNames.idxOf one < fileNames.idxOf other

/-- Whether a configuration file counts if it is in a directory: none of those before it is there. -/
structure LookedFor (files : FileSystem) (directory : Path) (named : Text × Format) : Prop where
  listed : named ∈ fileNames
  after : ∀ other, Precedes other named → files.exists? (directory.join ⟨other.1⟩) = false

/-- Whether a configuration file is the first in a directory. -/
structure IsFirst (files : FileSystem) (directory : Path) (named : Text × Format) : Prop extends
    LookedFor files directory named where
  there : files.exists? (directory.join ⟨named.1⟩) = true

theorem nodup_fileNames : (fileNames.map (·.1)).Nodup := by decide

theorem precedes_iff {earlier rest : List (Text × Format)} {named other : Text × Format}
    (own : fileNames = earlier ++ named :: rest) : Precedes other named ↔ other ∈ earlier := by
  have fresh : named ∉ earlier := by
    have apart : fileNames.Nodup := by decide
    rw [own, List.nodup_append] at apart
    exact fun member => apart.2.2 named member named List.mem_cons_self rfl
  rw [Precedes, own, List.idxOf_append_of_notMem fresh, List.idxOf_cons_self, Nat.add_zero]
  by_cases member : other ∈ earlier
  · simp [List.idxOf_append_of_mem member, List.idxOf_lt_length_iff, member]
  · simp [List.idxOf_append_of_notMem member, member]

variable {files other : FileSystem} {directory : Path} {named : Text × Format}

theorem find?_fileNames_eq_some_iff :
    (fileNames.find? fun named => files.exists? (directory.join ⟨named.1⟩)) = some named ↔
      IsFirst files directory named := by
  rw [List.find?_eq_some_iff_append]
  constructor
  · rintro ⟨there, earlier, rest, own, none⟩
    refine ⟨⟨own ▸ List.mem_append_right earlier List.mem_cons_self, fun other before => ?_⟩, there⟩
    simpa using none other ((precedes_iff own).mp before)
  · rintro ⟨⟨listed, after⟩, there⟩
    obtain ⟨earlier, rest, own⟩ := List.append_of_mem listed
    exact ⟨there, earlier, rest, own, fun other member => by simpa using after other ((precedes_iff own).mpr member)⟩

theorem file?_eq (files : FileSystem) (directory : Path) : file? files directory =
    (fileNames.find? fun named => files.exists? (directory.join ⟨named.1⟩)).map fun named =>
      (directory.join ⟨named.1⟩, named.2) := by
  rw [file?, List.find?_map]
  rfl

theorem load_of_isFirst (first : IsFirst files directory named) :
    load files directory = (settings files (directory.join ⟨named.1⟩) named.2).map some := by
  rw [load, file?_eq, find?_fileNames_eq_some_iff.mpr first]
  rfl

theorem load_of_absent (absent : ∀ named ∈ fileNames, files.exists? (directory.join ⟨named.1⟩) = false) :
    load files directory = .ok none := by
  have none : (fileNames.find? fun named => files.exists? (directory.join ⟨named.1⟩)) = none :=
    List.find?_eq_none.mpr fun named listed => by simp [absent named listed]
  rw [load, file?_eq, none]
  rfl

theorem exists_isFirst_or_absent (files : FileSystem) (directory : Path) : (∃ named, IsFirst files directory named) ∨
    ∀ named ∈ fileNames, files.exists? (directory.join ⟨named.1⟩) = false := by
  cases found : fileNames.find? fun named => files.exists? (directory.join ⟨named.1⟩) with
  | none => exact .inr fun named listed => by simpa using List.find?_eq_none.mp found named listed
  | some named => exact .inl ⟨named, find?_fileNames_eq_some_iff.mp found⟩

/-- What is loaded from a directory: nothing if no configuration file is there, else what the first one sets, and if this
    cannot be read or understood, an error. -/
inductive Loads (files : FileSystem) (directory : Path) : Except Failure (Option Settings) → Prop
  | absent : (∀ named ∈ fileNames, files.exists? (directory.join ⟨named.1⟩) = false) → Loads files directory (.ok none)
  | unreadable {name : Text} {format : Format} {error : FileError} : IsFirst files directory (name, format) →
      files.read (directory.join ⟨name⟩) = .error error →
      Loads files directory (.error (.unreadable ⟨directory.join ⟨name⟩, error⟩))
  | malformed {name text : Text} {format : Format} : IsFirst files directory (name, format) →
      files.read (directory.join ⟨name⟩) = .ok text → format.settings? text = none →
      Loads files directory (.error (.malformed (directory.join ⟨name⟩)))
  | loaded {name text : Text} {format : Format} {settings : Settings} : IsFirst files directory (name, format) →
      files.read (directory.join ⟨name⟩) = .ok text → format.settings? text = some settings →
      Loads files directory (.ok (some settings))

theorem loads_load (files : FileSystem) (directory : Path) : Loads files directory (load files directory) := by
  rcases exists_isFirst_or_absent files directory with ⟨⟨name, format⟩, first⟩ | absent
  · rw [load_of_isFirst first, settings]
    cases content : files.read (directory.join ⟨name⟩) with
    | error error => exact .unreadable first content
    | ok text =>
      dsimp only
      cases parsed : format.settings? text with
      | none => exact .malformed first content parsed
      | some settings => exact .loaded first content parsed
  · rw [load_of_absent absent]
    exact .absent absent

theorem load_eq_iff {result : Except Failure (Option Settings)} :
    load files directory = result ↔ Loads files directory result := by
  constructor
  · rintro rfl
    exact loads_load files directory
  · intro loads
    cases loads with
    | absent absent => exact load_of_absent absent
    | unreadable first content => simp [load_of_isFirst first, settings, content, Except.map]
    | malformed first content parsed => simp [load_of_isFirst first, settings, content, parsed, Except.map]
    | loaded first content parsed => simp [load_of_isFirst first, settings, content, parsed, Except.map]

/-! ### What the configuration does not depend on -/

theorem mem_of_precedes {before : Text × Format} (precedes : Precedes before named) (listed : named ∈ fileNames) :
    before ∈ fileNames :=
  List.idxOf_lt_length_iff.mp (precedes.trans (List.idxOf_lt_length_iff.mpr listed))

theorem LookedFor.of_precedes {before : Text × Format} (looked : LookedFor files directory named)
    (precedes : Precedes before named) : LookedFor files directory before where
  listed := mem_of_precedes precedes looked.listed
  after earlier := fun sooner => looked.after earlier (sooner.trans precedes)

section
variable (same : ∀ named, LookedFor files directory named →
  FileSystem.SameAt (directory.join ⟨named.1⟩) files other)
include same

theorem isFirst_congr (first : IsFirst files directory named) : IsFirst other directory named where
  listed := first.listed
  after before := fun precedes => by
    rw [(same before (first.of_precedes precedes)).exists?, first.after before precedes]
  there := by rw [(same named first.toLookedFor).exists?, first.there]

/-- What is loaded depends on the files up to the first only. -/
theorem load_congr : load other directory = load files directory := by
  rcases exists_isFirst_or_absent files directory with ⟨named, first⟩ | absent
  · have read := (same named first.toLookedFor).read first.there
    rw [load_of_isFirst first, load_of_isFirst (isFirst_congr same first), settings, settings, read]
  · have looked : ∀ named ∈ fileNames, LookedFor files directory named := fun named listed =>
      ⟨listed, fun before precedes => absent before (mem_of_precedes precedes listed)⟩
    rw [load_of_absent absent, load_of_absent fun named listed => by
      rw [(same named (looked named listed)).exists?, absent named listed]]

end

theorem isEntryName_of_mem_fileNames (listed : named ∈ fileNames) : isEntryName named.1 = true :=
  List.all_eq_true.mp (by decide : fileNames.all (fun named => isEntryName named.1) = true) named listed

/-- Nothing that is done to a file behind one that is there, in the same directory, changes what is loaded. -/
theorem load_of_sameBut {first later : Text × Format} {name : Name} {seat : Location}
    (there : files.exists? (directory.join ⟨first.1⟩) = true) (precedes : Precedes first later)
    (listed : later ∈ fileNames) (own : later.1 = name.text) (seated : files.seat? directory = some seat)
    (same : FileSystem.SameBut (seat ++ [name]) files other)
    (stays : files.entry? (seat ++ [name]) ≠ some .directory ∨ other.seat? directory = some seat) :
    load other directory = load files directory := by
  have also : other.seat? directory = some seat := stays.elim (same.seat? seated) id
  refine load_congr fun named looked => ?_
  let other : Name := ⟨named.1, isEntryName_of_mem_fileNames looked.listed⟩
  have apart : name ≠ other := by
    rintro rfl
    have alike : named = later := List.inj_on_of_nodup_map nodup_fileNames looked.listed listed own.symm
    rw [alike] at looked
    rw [looked.after first precedes] at there
    cases there
  refine FileSystem.sameAt_join seated also (same.elsewhere (seat ++ [other]) fun below => ?_)
  rw [List.prefix_append_right_inj] at below
  simp [apart] at below

/-! ### What is in effect -/

/-- A setting is that of an override, else that of the file, else the default. -/
inductive Chosen {α : Type} : Option α → Option α → α → α → Prop
  | override {value default : α} {setting : Option α} : Chosen (some value) setting default value
  | setting {value default : α} : Chosen none (some value) default value
  | default {default : α} : Chosen none none default default

theorem chosen_iff {α : Type} {override setting : Option α} {default value : α} :
    Chosen override setting default value ↔ (override <|> setting).getD default = value := by
  constructor
  · rintro ⟨⟩ <;> rfl
  · rintro rfl
    cases override with
    | some value => exact .override
    | none =>
      cases setting with
      | some value => exact .setting
      | none => exact .default

/-- The patterns to lint by are those that a file sets. If it sets none, there is a single one. -/
inductive PatternsOf : Option (List Text) → List Text → Prop
  | set {pattern : Text} {more : List Text} : PatternsOf (some (pattern :: more)) (pattern :: more)
  | empty : PatternsOf (some []) ["**/*.strudel".toList]
  | absent : PatternsOf none ["**/*.strudel".toList]

theorem patternsOf_iff {settings : Option Settings} {result : List Text} :
    PatternsOf (settings.bind (·.patterns)) result ↔ patterns (settings.getD {}) = result := by
  have same : settings.bind (·.patterns) = (settings.getD {}).patterns := by cases settings <;> rfl
  rw [same, patterns]
  generalize (settings.getD {}).patterns = set
  constructor
  · rintro (_ | _ | _) <;> rfl
  · rintro rfl
    rcases set with _ | _ | ⟨pattern, more⟩
    · exact .absent
    · exact .empty
    · exact .set

theorem PatternsOf.ne_nil {set : Option (List Text)} {result : List Text} (own : PatternsOf set result) :
    result ≠ [] := by
  cases own <;> simp

theorem ofName?_eq_some_iff {output : Text} {form : OutputForm} :
    OutputForm.ofName? output = some form ↔ output = form.name := by
  constructor
  · intro found
    rw [OutputForm.ofName?] at found
    simpa [eq_comm] using List.find?_some found
  · rintro rfl
    exact form.ofName?_name

theorem ofName?_eq_none_iff {output : Text} :
    OutputForm.ofName? output = none ↔ output ≠ "human".toList ∧ output ≠ "json".toList := by
  rw [Option.eq_none_iff_forall_ne_some]
  simp only [Ne, ofName?_eq_some_iff]
  constructor
  · exact fun other => ⟨other .human, other .json⟩
  · rintro ⟨human, json⟩ form
    cases form with
    | human => exact human
    | json => exact json

/-- The outcome of a resolution: an error if the file of the root does not load or the output that is chosen is no form
    of output, and else what is chosen for each setting. -/
inductive Resolves (files : FileSystem) (overrides : Overrides) : Except Failure Effective → Prop
  | unloaded {failure : Failure} : load files (overrides.root files) = .error failure →
      Resolves files overrides (.error failure)
  | unknownOutput {settings : Option Settings} {output : Text} : load files (overrides.root files) = .ok settings →
      Chosen overrides.output (settings.bind (·.output)) "human".toList output →
      output ≠ "human".toList → output ≠ "json".toList →
      Resolves files overrides (.error (.unknownOutput (overrides.root files) output))
  | resolved {settings : Option Settings} {config : Effective} : load files (overrides.root files) = .ok settings →
      config.root = overrides.root files →
      Chosen overrides.output (settings.bind (·.output)) "human".toList config.output.name →
      PatternsOf (settings.bind (·.patterns)) config.patterns →
      Chosen overrides.denyWarnings (settings.bind (·.denyWarnings)) false config.denyWarnings →
      Resolves files overrides (.ok config)

section
variable {overrides : Overrides} {settings : Option Settings}

/-- The output that is chosen. -/
def chosenOutput (overrides : Overrides) (settings : Option Settings) : Text :=
  (overrides.output <|> settings.bind (·.output)).getD "human".toList

theorem resolve_of_load (loaded : load files (overrides.root files) = .ok settings) : resolve files overrides =
    match OutputForm.ofName? (chosenOutput overrides settings) with
    | none => .error (.unknownOutput (overrides.root files) (chosenOutput overrides settings))
    | some form => .ok ⟨overrides.root files, form, patterns (settings.getD {}),
        (overrides.denyWarnings <|> settings.bind (·.denyWarnings)).getD false⟩ := by
  rw [resolve, loaded]
  cases settings <;> rfl

end

theorem resolves_resolve (files : FileSystem) (overrides : Overrides) :
    Resolves files overrides (resolve files overrides) := by
  cases loaded : load files (overrides.root files) with
  | error failure =>
    have unresolved : resolve files overrides = .error failure := by rw [resolve, loaded]
    rw [unresolved]
    exact .unloaded loaded
  | ok settings =>
    have chosen := chosen_iff.mpr (rfl : chosenOutput overrides settings = _)
    rw [resolve_of_load loaded]
    cases found : OutputForm.ofName? (chosenOutput overrides settings) with
    | none =>
      obtain ⟨human, json⟩ := ofName?_eq_none_iff.mp found
      exact .unknownOutput loaded chosen human json
    | some form =>
      rw [ofName?_eq_some_iff.mp found] at chosen
      exact .resolved loaded rfl chosen (patternsOf_iff.mpr rfl) (chosen_iff.mpr rfl)

theorem resolve_eq_iff {overrides : Overrides} {result : Except Failure Effective} :
    resolve files overrides = result ↔ Resolves files overrides result := by
  constructor
  · rintro rfl
    exact resolves_resolve files overrides
  · intro resolves
    cases resolves with
    | unloaded unloaded => rw [resolve, unloaded]
    | unknownOutput loaded chosen human json =>
      have own : chosenOutput overrides _ = _ := chosen_iff.mp chosen
      rw [resolve_of_load loaded, own, ofName?_eq_none_iff.mpr ⟨human, json⟩]
    | @resolved settings config loaded root chosen set deny =>
      have own : chosenOutput overrides settings = _ := chosen_iff.mp chosen
      rw [resolve_of_load loaded, own, OutputForm.ofName?_name, patternsOf_iff.mp set, chosen_iff.mp deny, ← root]

/-- A resolution succeeds just when the file of the root loads and the output that is chosen is a form of output. -/
theorem exists_resolve_iff {overrides : Overrides} : (∃ config, resolve files overrides = .ok config) ↔
    ∃ settings form, load files (overrides.root files) = .ok settings ∧
      Chosen overrides.output (settings.bind (·.output)) "human".toList (OutputForm.name form) := by
  simp only [resolve_eq_iff]
  constructor
  · rintro ⟨config, resolves⟩
    cases resolves with
    | resolved loaded _ chosen _ _ => exact ⟨_, config.output, loaded, chosen⟩
  · rintro ⟨settings, form, loaded, chosen⟩
    exact ⟨⟨_, form, _, _⟩, .resolved loaded rfl chosen (patternsOf_iff.mpr rfl) (chosen_iff.mpr rfl)⟩

/-- Where the output is overridden, that of the file plays no part. -/
theorem resolve_congr {overrides : Overrides} {output : Text} {settings another : Option Settings}
    (overridden : overrides.output = some output) (root : overrides.root other = overrides.root files)
    (loaded : load files (overrides.root files) = .ok settings)
    (also : load other (overrides.root files) = .ok another)
    (patterns : another.bind (·.patterns) = settings.bind (·.patterns))
    (deny : another.bind (·.denyWarnings) = settings.bind (·.denyWarnings)) :
    resolve other overrides = resolve files overrides := by
  have chosen (settings : Option Settings) : chosenOutput overrides settings = output := by
    rw [chosenOutput, overridden]
    rfl
  have same : Config.patterns (another.getD {}) = Config.patterns (settings.getD {}) := by
    refine patternsOf_iff.mp ?_
    rw [patterns]
    exact patternsOf_iff.mpr rfl
  rw [← root] at also
  rw [resolve_of_load loaded, resolve_of_load also, chosen, chosen, root, same, deny]

/-- What is loaded from a directory is what its first configuration file sets, or why this does not load, and nothing if
    there is no such file. It depends on the files up to the first only, so nothing that is done to a later one in the same
    directory changes it. What is in effect is chosen setting by setting, and there is a configuration just when the file
    of the root loads and the output that is chosen is a form of output; it always has a pattern. Where the output is
    overridden, the output that a file sets changes nothing. -/
theorem effective_exact (files : FileSystem) :
    (∀ directory result, load files directory = result ↔ Loads files directory result) ∧
    (∀ directory other, (∀ named, LookedFor files directory named →
      FileSystem.SameAt (directory.join ⟨named.1⟩) files other) → load other directory = load files directory) ∧
    (∀ directory first later name seat other, files.exists? (directory.join ⟨Prod.fst first⟩) = true →
      Precedes first later → later ∈ fileNames → later.1 = Name.text name → files.seat? directory = some seat →
      FileSystem.SameBut (seat ++ [name]) files other →
      files.entry? (seat ++ [name]) ≠ some .directory ∨ other.seat? directory = some seat →
      load other directory = load files directory) ∧
    (∀ overrides result, resolve files overrides = result ↔ Resolves files overrides result) ∧
    (∀ overrides, (∃ config, resolve files overrides = .ok config) ↔
      ∃ settings form, load files (overrides.root files) = .ok settings ∧
        Chosen overrides.output (settings.bind (·.output)) "human".toList (OutputForm.name form)) ∧
    (∀ overrides config, resolve files overrides = .ok config → config.patterns ≠ []) ∧
    (∀ overrides output settings another other, overrides.output = some output →
      overrides.root other = overrides.root files → load files (overrides.root files) = .ok settings →
      load other (overrides.root files) = .ok another →
      another.bind (·.patterns) = settings.bind (·.patterns) →
      another.bind (·.denyWarnings) = settings.bind (·.denyWarnings) →
      resolve other overrides = resolve files overrides) := by
  refine ⟨fun directory result => load_eq_iff, fun directory other same => load_congr same,
    fun directory first later name seat other there precedes listed own seated same stays =>
      load_of_sameBut there precedes listed own seated same stays,
    fun overrides result => resolve_eq_iff, fun overrides => exists_resolve_iff, fun overrides config resolved => ?_,
    fun overrides output settings another other overridden root loaded also patterns deny =>
      resolve_congr overridden root loaded also patterns deny⟩
  cases resolve_eq_iff.mp resolved with
  | resolved _ _ _ set _ => exact set.ne_nil

/-- A configuration file that asks for an unknown form of output. -/
def misnamed : FileSystem where
  entries := [([tomlName], .file ⟨#[111, 117, 116, 112, 117, 116, 61, 34, 120, 34]⟩)]
  here := []

theorem locate_misnamed : misnamed.locate ⟨"./strudel-lint.toml".toList⟩ =
    .ok ([tomlName], .file ⟨#[111, 117, 116, 112, 117, 116, 61, 34, 120, 34]⟩) := rfl

theorem read_misnamed : misnamed.read ⟨"./strudel-lint.toml".toList⟩ = .ok "output=\"x\"".toList := by
  have decoded : Text.decode? ⟨#[111, 117, 116, 112, 117, 116, 61, 34, 120, 34]⟩ = some "output=\"x\"".toList := rfl
  simp only [FileSystem.read, locate_misnamed, decoded]

theorem isFirst_misnamed : IsFirst misnamed ⟨['.']⟩ ("strudel-lint.toml".toList, .toml) where
  listed := List.mem_cons_self
  after _ precedes := absurd precedes (Nat.not_lt_zero _)
  there := FileSystem.exists?_iff.mpr ⟨_, _, locate_misnamed⟩

theorem root_misnamed (output : Option Text) : Overrides.root { output := output } misnamed = ⟨['.']⟩ :=
  have top : root misnamed ⟨['.']⟩ = ⟨['.']⟩ := by decide +kernel
  top

/-- A file that cannot be read behind another changes nothing. The output that is asked for is unknown, but it is not if it
    is overridden. -/
theorem effective_exact_misnamed :
    load (misnamed.put [⟨"strudel-lint.yaml".toList, rfl⟩] .directory) ⟨['.']⟩ = load misnamed ⟨['.']⟩ ∧
    resolve misnamed {} = .error (.unknownOutput ⟨['.']⟩ ['x']) ∧
    ∃ config, resolve misnamed { output := some "json".toList } = .ok config ∧ config.patterns ≠ [] := by
  obtain ⟨loads, -, later, resolves, succeeds, patterns, -⟩ := effective_exact misnamed
  have set : Format.settings? "output=\"x\"".toList .toml = some { output := some ['x'] } := by
    rw [Format.settings?]
    decide +kernel
  have loaded := (loads ⟨['.']⟩ _).mpr (.loaded isFirst_misnamed read_misnamed set)
  refine ⟨?_, ?_, ?_⟩
  · have seated : misnamed.seat? ⟨['.']⟩ = some [] :=
      FileSystem.seat?_of_directory? (FileSystem.directory?_eq_some_iff.mpr (FileSystem.locate_dot rfl))
    have precedes : Precedes ("strudel-lint.toml".toList, .toml) ("strudel-lint.yaml".toList, .yaml) := by
      rw [Precedes]
      decide
    have free : misnamed.entry? [⟨"strudel-lint.yaml".toList, rfl⟩] = none := by rfl
    exact later _ _ _ _ _ _ isFirst_misnamed.there precedes (by decide) rfl seated
      (FileSystem.sameBut_put rfl _ .directory) (.inl (free ▸ (Option.some_ne_none _).symm))
  · have unknown := (resolves {} _).mpr
      (.unknownOutput ((root_misnamed none).symm ▸ loaded) .setting (by decide) (by decide))
    rwa [root_misnamed none] at unknown
  · obtain ⟨config, resolved⟩ := (succeeds { output := some "json".toList }).mpr
      ⟨_, .json, (root_misnamed _).symm ▸ loaded, .override⟩
    exact ⟨config, resolved, patterns _ _ resolved⟩

end Config
end PatternLint
