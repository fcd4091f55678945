import PatternLint.Glob.Expansion
import PatternLint.Proofs.Patterns
import PatternLint.Proofs.Walks

/-!
# What patterns lead to

The expansion of a pattern follows its components from directory to directory (`Leads`, `mem_expand_iff`). A path
that it leads to has steps that the components stand for (`Leads.covers`), and is spelled with a dot in front only
under conditions on the pattern (`Leads.startsHere`, `Leads.isHere_or`).
-/
namespace PatternLint.Glob

/-! ### Steps of an expansion -/

/-- The path along names below a directory. -/
def descend (directory : Path) (way : Location) : Path := way.foldl (fun path name => child path name.text) directory

/-- Whether a name that is followed as it is written is there. -/
def isThere (files : FileSystem) (directory : Path) (text : Text) : Bool :=
  if isDots text then (files.directory? directory).isSome else files.exists? (child directory text)

/-- The paths that the components of a pattern lead to from a directory. -/
inductive Leads (files : FileSystem) : List Piece → Path → Path → Prop
  | done {path : Path} : Leads files [] path path
  | literal {text : Text} {pieces : List Piece} {directory path : Path} : isThere files directory text = true →
      Leads files pieces (child directory text) path → Leads files (.literal text :: pieces) directory path
  | dots {tokens : List Token} {location : Location} {dots : Text} {pieces : List Piece} {directory path : Path} :
      files.directory? directory = some location → dots ∈ dotsMatching tokens →
      Leads files pieces (directory.join ⟨dots⟩) path → Leads files (.wildcard tokens :: pieces) directory path
  | name {tokens : List Token} {location : Location} {name : Name} {pieces : List Piece} {directory path : Path} :
      files.directory? directory = some location → name ∈ files.names location → accepts tokens name.text = true →
      Leads files pieces (child directory name.text) path → Leads files (.wildcard tokens :: pieces) directory path
  | repeated {pieces : List Piece} {directory path : Path} :
      Leads files (.directories :: pieces) directory path →
      Leads files (.directories :: .directories :: pieces) directory path
  | entry {location way : Location} {name : Name} {piece : Piece} {pieces : List Piece} {directory path : Path} :
      files.directory? directory = some location → location ++ way ∈ files.below location →
      piece ≠ .directories → way.getLast? = some name → piece.matches name.text = true →
      Leads files pieces (descend directory way) path → Leads files (.directories :: piece :: pieces) directory path
  | directories {location way : Location} {directory : Path} :
      files.directory? directory = some location → location ++ way ∈ files.below location →
      (files.directory? (descend directory way)).isSome = true →
      Leads files [.directories] directory (descend directory way)

section
variable {files : FileSystem} {pieces : List Piece} {directory path : Path}

theorem leads_nil_iff : Leads files [] directory path ↔ path = directory := by
  constructor
  · rintro ⟨⟩
    rfl
  · rintro rfl
    exact .done

theorem leads_literal_iff {text : Text} : Leads files (.literal text :: pieces) directory path ↔
    isThere files directory text = true ∧ Leads files pieces (child directory text) path := by
  constructor
  · rintro (_ | ⟨there, onward⟩)
    exact ⟨there, onward⟩
  · rintro ⟨there, onward⟩
    exact .literal there onward

theorem leads_wildcard_iff {tokens : List Token} : Leads files (.wildcard tokens :: pieces) directory path ↔
    ∃ location, files.directory? directory = some location ∧
      ((∃ dots ∈ dotsMatching tokens, Leads files pieces (directory.join ⟨dots⟩) path) ∨
        ∃ name, (name ∈ files.names location ∧ accepts tokens name.text = true) ∧
          Leads files pieces (child directory name.text) path) := by
  constructor
  · intro leads
    cases leads with
    | dots there matching onward => exact ⟨_, there, .inl ⟨_, matching, onward⟩⟩
    | name there listed accepted onward => exact ⟨_, there, .inr ⟨_, ⟨listed, accepted⟩, onward⟩⟩
  · rintro ⟨location, there, ⟨dots, matching, onward⟩ | ⟨name, ⟨listed, accepted⟩, onward⟩⟩
    · exact .dots there matching onward
    · exact .name there listed accepted onward

theorem leads_repeated_iff : Leads files (.directories :: .directories :: pieces) directory path ↔
    Leads files (.directories :: pieces) directory path := by
  constructor
  · intro leads
    cases leads with
    | repeated onward => exact onward
    | entry _ _ other => exact absurd rfl other
  · exact .repeated

theorem leads_entry_iff {piece : Piece} (other : piece ≠ .directories) :
    Leads files (.directories :: piece :: pieces) directory path ↔
    ∃ location way, files.directory? directory = some location ∧ location ++ way ∈ files.below location ∧
      (∃ name, way.getLast? = some name ∧ piece.matches name.text = true) ∧
      Leads files pieces (descend directory way) path := by
  constructor
  · intro leads
    cases leads with
    | repeated => exact absurd rfl other
    | entry there listed _ last accepted onward => exact ⟨_, _, there, listed, ⟨_, last, accepted⟩, onward⟩
  · rintro ⟨location, way, there, listed, ⟨name, last, accepted⟩, onward⟩
    exact .entry there listed other last accepted onward

theorem leads_directories_iff : Leads files [.directories] directory path ↔
    ∃ location way, files.directory? directory = some location ∧ location ++ way ∈ files.below location ∧
      (files.directory? (descend directory way)).isSome = true ∧ path = descend directory way := by
  constructor
  · intro leads
    cases leads with
    | directories there listed isDirectory => exact ⟨_, _, there, listed, isDirectory, rfl⟩
  · rintro ⟨location, way, there, listed, isDirectory, rfl⟩
    exact .directories there listed isDirectory

end

theorem expandEntry_cons (files : FileSystem) (way : Location) (directory : Path) {piece : Piece}
    (other : piece ≠ .directories) (pieces : List Piece) :
    expand.expandEntry files way directory (piece :: pieces) =
      if way.getLast?.any (fun name => piece.matches name.text) then expand files pieces (descend directory way)
      else [] := by
  cases piece with
  | directories => exact absurd rfl other
  | _ => rfl

/-- Expansion finds what the components lead to. -/
theorem mem_expand_iff (files : FileSystem) (pieces : List Piece) (directory path : Path) :
    path ∈ expand files pieces directory ↔ Leads files pieces directory path := by
  -- behind two stars the expansion goes on from an entry below the directory, so both forms are followed at once
  suffices both : (∀ directory, path ∈ expand files pieces directory ↔ Leads files pieces directory path) ∧
      ∀ directory, (∃ location way, files.directory? directory = some location ∧
        location ++ way ∈ files.below location ∧ path ∈ expand.expandEntry files way directory pieces) ↔
          Leads files (.directories :: pieces) directory path from both.1 directory
  clear directory
  induction pieces with
  | nil =>
    refine ⟨fun directory => ?_, fun directory => ?_⟩
    · rw [expand, List.mem_singleton, leads_nil_iff]
    · rw [leads_directories_iff]
      simp only [expand.expandEntry, descend]
      simp
  | cons piece pieces ih =>
    obtain ⟨ihPath, ihEntry⟩ := ih
    refine ⟨fun directory => ?_, fun directory => ?_⟩
    · cases piece with
      | literal text =>
        rw [leads_literal_iff, ← ihPath, isThere, expand]
        simp
      | wildcard tokens =>
        simp only [leads_wildcard_iff, ← ihPath]
        rw [expand]
        cases files.directory? directory <;> simp
      | directories =>
        rw [← ihEntry, expand]
        cases there : files.directory? directory with
        | none => simp
        | some location =>
          simp only [List.mem_flatMap, Option.some.injEq]
          constructor
          · rintro ⟨entry, listed, found⟩
            obtain ⟨⟨way, _, rfl⟩, _⟩ := (FileSystem.mem_below_iff _ _ _).mp listed
            rw [List.drop_left] at found
            exact ⟨location, way, rfl, listed, found⟩
          · rintro ⟨_, way, rfl, listed, found⟩
            exact ⟨_, listed, by rwa [List.drop_left]⟩
    · by_cases stars : piece = .directories
      · rw [stars, leads_repeated_iff]
        exact ihEntry directory
      · simp only [leads_entry_iff stars, expandEntry_cons files _ directory stars, ← ihPath]
        simp [Option.any_eq_true]

theorem mem_files_iff (files : FileSystem) (glob : Pattern) (path : Path) :
    path ∈ glob.files files ↔ glob.onlyDirectories = false ∧ files.isFile path = true ∧
      Leads files glob.pieces ⟨if glob.isAbsolute then ['/'] else ['.']⟩ path := by
  rw [Pattern.files]
  cases glob.onlyDirectories <;> simp [mem_expand_iff, and_comm]

/-! ### Children -/

theorem mem_dotsMatching_iff {tokens : List Token} {dots : Text} : dots ∈ dotsMatching tokens ↔
    tokens.head? = some (.char '.') ∧ (dots = ['.', '.'] ∨ dots = ['.']) ∧ accepts tokens dots = true := by
  rw [dotsMatching]
  split
  · next dotted => simp [dotted, List.mem_filter]
  · next other => simp [other]

theorem free_of_mem_dotsMatching {tokens : List Token} {dots : Text} (matching : dots ∈ dotsMatching tokens) :
    '/' ∉ dots := by
  obtain ⟨_, rfl | rfl, _⟩ := mem_dotsMatching_iff.mp matching <;> decide

theorem text_ne_nil_of_directory? {files : FileSystem} {directory : Path} {location : Location}
    (there : files.directory? directory = some location) : directory.text ≠ [] := by
  rintro empty
  simp [FileSystem.directory?, FileSystem.locate, empty] at there

section
variable {text : Text} (free : '/' ∉ text)
include free

theorem steps_join_of_free (directory : Path) :
    (directory.join ⟨text⟩).steps = directory.steps ++ (Path.component? text).toList := by
  rw [← Path.steps_of_free free]
  by_cases empty : directory.text = []
  · obtain ⟨own⟩ := directory
    cases empty
    rw [Path.join_of_empty rfl]
    rfl
  · exact Path.steps_join (Path.isAbsolute_of_free free) empty

theorem isAbsolute_join_of_free (directory : Path) : (directory.join ⟨text⟩).isAbsolute = directory.isAbsolute := by
  have relative := Path.isAbsolute_of_free free
  by_cases empty : directory.text = []
  · rw [Path.join_of_empty empty, relative]
    simp [Path.isAbsolute, empty]
  · exact Path.isAbsolute_join relative empty

theorem startsHere_join_of_free {directory : Path} (filled : directory.text ≠ [] ∨ text ≠ ['.']) :
    (directory.join ⟨text⟩).startsHere = directory.startsHere := by
  by_cases empty : directory.text = []
  · have other := filled.resolve_left (absurd empty)
    rw [Path.join_of_empty empty, Path.startsHere, Path.segments_of_free free]
    simp [Path.startsHere, Path.segments, empty, other]
  · exact Path.startsHere_join (Path.isAbsolute_of_free free) empty

theorem startsHere_of_free : Path.startsHere ⟨text⟩ = decide (text = ['.']) := by
  rw [Path.startsHere, Path.segments_of_free free]
  simp

theorem isHere_of_free : Path.isHere ⟨text⟩ = decide (text = ['.']) := by
  rw [Bool.eq_iff_iff, Path.isHere_iff, startsHere_of_free free, decide_eq_true_eq, Path.steps_of_free free]
  constructor
  · exact And.left
  · rintro rfl
    exact ⟨rfl, rfl⟩

theorem steps_child (directory : Path) :
    (child directory text).steps = directory.steps ++ (Path.component? text).toList := by
  rw [child]
  split
  · next here => rw [((Path.isHere_iff directory).mp here).2, Path.steps_of_free free, List.nil_append]
  · exact steps_join_of_free free directory

theorem isAbsolute_child (directory : Path) : (child directory text).isAbsolute = directory.isAbsolute := by
  rw [child]
  split
  · next here =>
    rw [Path.isAbsolute_of_free free, Path.isAbsolute_of_startsHere ((Path.isHere_iff directory).mp here).1]
  · exact isAbsolute_join_of_free free directory

theorem startsHere_child {directory : Path} (there : directory.isHere = false)
    (filled : directory.text ≠ [] ∨ text ≠ ['.']) : (child directory text).startsHere = directory.startsHere := by
  rw [child, if_neg (by simp [there])]
  exact startsHere_join_of_free free filled

end

theorem isHere_of_steps_ne_nil {path : Path} (some_step : path.steps ≠ []) : path.isHere = false := by
  rw [Bool.eq_false_iff, Ne, Path.isHere_iff]
  exact fun here => some_step here.2

/-- A path with as many steps or more that starts like one that is not the current directory is not it either. -/
theorem isHere_eq_false_of_steps {directory path : Path} {more : List Path.Component}
    (there : directory.isHere = false) (starts : path.startsHere = directory.startsHere)
    (steps : path.steps = directory.steps ++ more) : path.isHere = false := by
  rw [Bool.eq_false_iff, Ne, Path.isHere_iff] at there ⊢
  rintro ⟨here, none⟩
  rw [steps, List.append_eq_nil_iff] at none
  exact there ⟨starts ▸ here, none.1⟩

theorem isHere_child {directory : Path} {text : Text} (free : '/' ∉ text) (there : directory.isHere = false)
    (filled : directory.text ≠ [] ∨ text ≠ ['.']) : (child directory text).isHere = false :=
  isHere_eq_false_of_steps there (startsHere_child free there filled) (steps_child free directory)

theorem descend_cons (directory : Path) (name : Name) (way : Location) :
    descend directory (name :: way) = descend (child directory name.text) way := rfl

theorem steps_descend (directory : Path) (way : Location) :
    (descend directory way).steps = directory.steps ++ way.map fun name => .name name.text := by
  induction way generalizing directory with
  | nil => simp [descend]
  | cons name way ih =>
    rw [descend_cons, ih, steps_child name.free, name.component?, List.append_assoc]
    rfl

theorem isAbsolute_descend (directory : Path) (way : Location) :
    (descend directory way).isAbsolute = directory.isAbsolute := by
  induction way generalizing directory with
  | nil => rfl
  | cons name way ih => rw [descend_cons, ih, isAbsolute_child name.free]

theorem startsHere_descend {directory : Path} (there : directory.isHere = false) (way : Location) :
    (descend directory way).startsHere = directory.startsHere := by
  induction way generalizing directory with
  | nil => rfl
  | cons name way ih =>
    have other : directory.text ≠ [] ∨ name.text ≠ ['.'] := .inr name.ne_here
    rw [descend_cons, ih (isHere_child name.free there other), startsHere_child name.free there other]

/-! ### What pieces stand for -/

/-- The steps that a component of a pattern can stand for. -/
inductive Piece.Covers : Piece → List Path.Component → Prop
  | literal {text : Text} : Covers (.literal text) (Path.component? text).toList
  | name {tokens : List Token} {name : Name} : accepts tokens name.text = true →
      Covers (.wildcard tokens) [.name name.text]
  | dots {tokens : List Token} {dots : Text} : dots ∈ dotsMatching tokens →
      Covers (.wildcard tokens) (Path.component? dots).toList
  | directories (way : Location) : Covers .directories (way.map fun name => .name name.text)

/-- The steps that the components of a pattern can stand for. -/
inductive Covers : List Piece → List Path.Component → Prop
  | nil : Covers [] []
  | cons {piece : Piece} {pieces : List Piece} {first rest : List Path.Component} :
      piece.Covers first → Covers pieces rest → Covers (piece :: pieces) (first ++ rest)

theorem Covers.of_append {lead rest : List Piece} {steps : List Path.Component} (covers : Covers (lead ++ rest) steps) :
    ∃ first second, steps = first ++ second ∧ Covers lead first ∧ Covers rest second := by
  induction lead generalizing steps with
  | nil => exact ⟨[], steps, rfl, .nil, covers⟩
  | cons piece lead ih =>
    cases covers with
    | cons own onward =>
      obtain ⟨first, second, rfl, inLead, inRest⟩ := ih onward
      exact ⟨_, second, (List.append_assoc _ _ _).symm, .cons own inLead, inRest⟩

/-- Components that are followed as they are written stand for their own steps. -/
theorem Covers.of_literals {segments : List Text} {steps : List Path.Component}
    (covers : Covers (segments.map .literal) steps) : steps = segments.filterMap Path.component? := by
  induction segments generalizing steps with
  | nil =>
    cases covers
    rfl
  | cons segment segments ih =>
    cases covers with
    | cons own onward =>
      cases own
      rw [ih onward]
      cases named : Path.component? segment <;> simp [named]

theorem Piece.covers_of_matches {piece : Piece} {name : Name} (other : piece ≠ .directories)
    (accepted : piece.matches name.text = true) : piece.Covers [.name name.text] := by
  cases piece with
  | literal text =>
    have same : text = name.text := of_decide_eq_true accepted
    have covers := @Piece.Covers.literal name.text
    rw [name.component?] at covers
    exact same ▸ covers
  | wildcard tokens => exact .name accepted
  | directories => exact absurd rfl other

/-- The components of a pattern that are followed as they are written hold no slash. -/
def SlashFree (pieces : List Piece) : Prop := ∀ text, .literal text ∈ pieces → '/' ∉ text

theorem SlashFree.tail {piece : Piece} {pieces : List Piece} (free : SlashFree (piece :: pieces)) : SlashFree pieces :=
  fun text member => free text (List.mem_cons_of_mem piece member)

/-- A path that a pattern leads to goes on from the directory by steps that the pattern stands for. -/
theorem Leads.covers {files : FileSystem} {pieces : List Piece} {directory path : Path}
    (leads : Leads files pieces directory path) (free : SlashFree pieces) :
    path.isAbsolute = directory.isAbsolute ∧ ∃ covered, Covers pieces covered ∧
      path.steps = directory.steps ++ covered := by
  -- one step of the expansion in front of the steps that follow
  have onward {piece : Piece} {pieces : List Piece} {first : List Path.Component} {between directory path : Path}
      (own : piece.Covers first) (steps : between.steps = directory.steps ++ first)
      (side : between.isAbsolute = directory.isAbsolute)
      (rest : path.isAbsolute = between.isAbsolute ∧ ∃ covered, Covers pieces covered ∧
        path.steps = between.steps ++ covered) :
      path.isAbsolute = directory.isAbsolute ∧ ∃ covered, Covers (piece :: pieces) covered ∧
        path.steps = directory.steps ++ covered := by
    obtain ⟨same, covered, covers, after⟩ := rest
    exact ⟨same.trans side, first ++ covered, .cons own covers, by rw [after, steps, List.append_assoc]⟩
  induction leads with
  | done => exact ⟨rfl, [], .nil, by simp⟩
  | @literal text pieces directory path _ _ ih =>
    have own := free text List.mem_cons_self
    exact onward .literal (steps_child own directory) (isAbsolute_child own directory) (ih free.tail)
  | @dots tokens location dots pieces directory path _ matching _ ih =>
    have own := free_of_mem_dotsMatching matching
    exact onward (.dots matching) (steps_join_of_free own directory) (isAbsolute_join_of_free own directory)
      (ih free.tail)
  | @name tokens location name pieces directory path _ _ accepted _ ih =>
    refine onward (.name accepted) ?_ (isAbsolute_child name.free directory) (ih free.tail)
    rw [steps_child name.free, name.component?]
    rfl
  | repeated _ ih =>
    obtain ⟨same, covered, covers, after⟩ := ih free.tail
    exact ⟨same, covered, .cons (.directories []) covers, after⟩
  | @entry location way name piece pieces directory path _ _ other last accepted _ ih =>
    obtain ⟨above, rfl⟩ := List.getLast?_eq_some_iff.mp last
    obtain ⟨same, covered, covers, after⟩ := ih free.tail.tail
    refine ⟨same.trans (isAbsolute_descend directory _), _,
      .cons (.directories above) (.cons (Piece.covers_of_matches other accepted) covers), ?_⟩
    rw [after, steps_descend, List.map_append]
    simp
  | @directories location way directory _ _ _ =>
    refine ⟨isAbsolute_descend directory way, _, .cons (.directories way) .nil, ?_⟩
    rw [steps_descend, List.append_nil]

/-- A path that a pattern leads to from elsewhere starts with a dot just when the directory does. -/
theorem Leads.startsHere {files : FileSystem} {pieces : List Piece} {directory path : Path}
    (leads : Leads files pieces directory path) (free : SlashFree pieces) (there : directory.isHere = false) :
    path.startsHere = directory.startsHere := by
  induction leads with
  | done => rfl
  | @literal text pieces directory path isThere _ ih =>
    have own := free text List.mem_cons_self
    have filled : directory.text ≠ [] ∨ text ≠ ['.'] := by
      by_cases dot : text = ['.']
      · rw [Glob.isThere, if_pos (by simp [isDots, dot])] at isThere
        obtain ⟨location, found⟩ := Option.isSome_iff_exists.mp isThere
        exact .inl (text_ne_nil_of_directory? found)
      · exact .inr dot
    rw [ih free.tail (isHere_child own there filled), startsHere_child own there filled]
  | @dots tokens location dots pieces directory path found matching _ ih =>
    have own := free_of_mem_dotsMatching matching
    have starts := startsHere_join_of_free own (.inl (text_ne_nil_of_directory? found))
    rw [ih free.tail (isHere_eq_false_of_steps there starts (steps_join_of_free own directory)), starts]
  | @name tokens location name pieces directory path _ _ _ _ ih =>
    have other : directory.text ≠ [] ∨ name.text ≠ ['.'] := .inr name.ne_here
    rw [ih free.tail (isHere_child name.free there other), startsHere_child name.free there other]
  | repeated _ ih => exact ih free.tail there
  | @entry location way name piece pieces directory path _ _ _ _ _ _ ih =>
    have starts := startsHere_descend there way
    rw [ih free.tail.tail (isHere_eq_false_of_steps there starts (steps_descend directory way)), starts]
  | @directories location way directory _ _ _ => exact startsHere_descend there way

/-! ### From the current directory -/

/-- What is found below the current directory starts with the name that is followed first. -/
theorem startsHere_of_child {files : FileSystem} {pieces : List Piece} {directory path : Path} {text : Text}
    (here : directory.isHere = true) (slash : '/' ∉ text) (other : text ≠ ['.']) (free : SlashFree pieces)
    (leads : Leads files pieces (child directory text) path) : path.startsHere = false := by
  rw [child, if_pos here] at leads
  rw [leads.startsHere free (by simp [isHere_of_free slash, other]), startsHere_of_free slash]
  simp [other]

theorem startsHere_descend_of_isHere {directory : Path} (here : directory.isHere = true) {way : Location}
    (some_way : way ≠ []) : (descend directory way).startsHere = false := by
  obtain ⟨name, way, rfl⟩ := List.exists_cons_of_ne_nil some_way
  have other := name.ne_here
  rw [descend_cons, child, if_pos here, startsHere_descend (by simp [isHere_of_free name.free, other]),
    startsHere_of_free name.free]
  simp [other]

/-- What a pattern leads to from the current directory does not start with a dot if the pattern does not. -/
theorem Leads.startsHere_of_first {files : FileSystem} {pieces : List Piece} {directory path : Path}
    (leads : Leads files pieces directory path) (free : SlashFree pieces) (here : directory.isHere = true)
    (some_piece : pieces ≠ []) (undotted : ∀ piece ∈ pieces.head?, piece.Undotted) : path.startsHere = false := by
  induction leads with
  | done => exact absurd rfl some_piece
  | @literal text pieces directory path _ onward _ =>
    have other : text ≠ ['.'] := by
      rintro rfl
      exact (undotted _ rfl).1 rfl
    exact startsHere_of_child here (free text List.mem_cons_self) other free.tail onward
  | @dots tokens location dots pieces directory path _ matching _ _ =>
    exact absurd (mem_dotsMatching_iff.mp matching).1 ((undotted _ rfl).2 tokens rfl)
  | @name tokens location name pieces directory path _ _ _ onward _ =>
    exact startsHere_of_child here name.free name.ne_here free.tail onward
  | repeated _ ih => exact ih free.tail here (by simp) undotted
  | @entry location way name piece pieces directory path _ _ _ last _ onward _ =>
    have some_way : way ≠ [] := by
      rintro rfl
      cases last
    have starts := startsHere_descend_of_isHere here some_way
    obtain ⟨above, rfl⟩ := List.getLast?_eq_some_iff.mp last
    have elsewhere : (descend directory (above ++ [name])).isHere = false :=
      isHere_of_steps_ne_nil (by simp [steps_descend])
    rw [onward.startsHere free.tail.tail elsewhere, starts]
  | @directories location way directory _ listed _ =>
    obtain ⟨⟨entry, some_entry, same⟩, _⟩ := (FileSystem.mem_below_iff _ _ _).mp listed
    rw [List.append_cancel_left same]
    exact startsHere_descend_of_isHere here some_entry

/-- No wildcard among the components of a pattern starts with a dot. -/
def DotFree (pieces : List Piece) : Prop := ∀ tokens, .wildcard tokens ∈ pieces → tokens.head? ≠ some (.char '.')

theorem DotFree.tail {piece : Piece} {pieces : List Piece} (free : DotFree (piece :: pieces)) : DotFree pieces :=
  fun tokens member => free tokens (List.mem_cons_of_mem piece member)

/-- What a pattern leads to from the current directory is that directory or does not start with a dot, if no wildcard
    does. -/
theorem Leads.isHere_or {files : FileSystem} {pieces : List Piece} {directory path : Path}
    (leads : Leads files pieces directory path) (free : SlashFree pieces) (undotted : DotFree pieces)
    (here : directory.isHere = true) : path.isHere = true ∨ path.startsHere = false := by
  induction pieces generalizing directory with
  | nil => exact .inl (leads_nil_iff.mp leads ▸ here)
  | cons piece pieces ih =>
    by_cases dot : piece = .literal ['.']
    · subst dot
      obtain ⟨_, onward⟩ := leads_literal_iff.mp leads
      refine ih onward free.tail undotted.tail ?_
      rw [child, if_pos here]
      decide
    · refine .inr (leads.startsHere_of_first free here (by simp) ?_)
      rintro _ ⟨⟩
      exact ⟨dot, fun tokens wild => undotted tokens (by simp [wild])⟩

/-- A file that matches a pattern is spelled from the top just when the pattern is. -/
theorem isAbsolute_of_found {path : Path} {glob : Pattern} (read : Pattern.ofText path.text = .ok glob)
    {files : FileSystem} {other : Path} (found : other ∈ glob.files files) : other.isAbsolute = path.isAbsolute := by
  obtain ⟨_, _, leads⟩ := (mem_files_iff files glob other).mp found
  have side := (pieces_of_ofText read).1
  rw [(leads.covers (free_of_ofText read)).1, side]
  cases path.isAbsolute <;> rfl

/-- A file that matches a pattern from the top is spelled from the top. -/
theorem startsHere_of_isAbsolute {glob : Pattern} (free : SlashFree glob.pieces) (absolute : glob.isAbsolute = true)
    {files : FileSystem} {path : Path} (found : path ∈ glob.files files) : path.startsHere = false := by
  obtain ⟨_, _, leads⟩ := (mem_files_iff files glob path).mp found
  rw [if_pos absolute] at leads
  exact leads.startsHere free (by decide)

/-- No file that matches a pattern is spelled with a dot in front, if no wildcard of the pattern is. -/
theorem startsHere_of_undotted {path : Path} {glob : Pattern} (read : Pattern.ofText path.text = .ok glob)
    (undotted : Undotted path) {files : FileSystem} {other : Path} (found : other ∈ glob.files files) :
    other.startsHere = false := by
  have free := free_of_ofText read
  cases absolute : glob.isAbsolute with
  | true => exact startsHere_of_isAbsolute free absolute found
  | false =>
    obtain ⟨_, isFile, leads⟩ := (mem_files_iff files glob other).mp found
    rw [if_neg (by simp [absolute])] at leads
    rcases leads.isHere_or free (fun tokens => head?_ne_dot_of_undotted read undotted) (by decide) with here | there
    · rw [FileSystem.isFile_of_isHere here] at isFile
      cases isFile
    · exact there

/-- Components lead up only if they are two dots or a wildcard that starts with a dot. -/
theorem Covers.up_not_mem {pieces : List Piece} {steps : List Path.Component} (covers : Covers pieces steps)
    (descending : .literal ['.', '.'] ∉ pieces) (undotted : DotFree pieces) : .up ∉ steps := by
  induction covers with
  | nil => simp
  | @cons piece pieces first rest own _ ih =>
    rw [List.mem_append, not_or]
    refine ⟨?_, ih (fun member => descending (List.mem_cons_of_mem _ member)) undotted.tail⟩
    cases own with
    | @literal text =>
      rw [Option.mem_toList, Path.component?_eq_up_iff]
      rintro rfl
      exact descending List.mem_cons_self
    | name => simp
    | dots matching => exact absurd (mem_dotsMatching_iff.mp matching).1 (undotted _ List.mem_cons_self)
    | directories way => simp

/-- A match of a pattern does not lead up if the pattern does not and no wildcard of it starts with a dot. -/
theorem up_not_mem_of_found {path : Path} {glob : Pattern} (read : Pattern.ofText path.text = .ok glob)
    (undotted : Undotted path) (descending : .up ∉ path.components) {files : FileSystem} {other : Path}
    (found : other ∈ glob.files files) : .up ∉ other.components := by
  obtain ⟨_, _, leads⟩ := (mem_files_iff files glob other).mp found
  obtain ⟨_, covered, covers, steps⟩ := leads.covers (free_of_ofText read)
  have none : Path.steps ⟨if glob.isAbsolute then ['/'] else ['.']⟩ = [] := by split <;> rfl
  rw [Path.up_mem_components_iff, steps, none, List.nil_append]
  refine covers.up_not_mem (fun member => ?_) fun tokens => head?_ne_dot_of_undotted read undotted
  obtain ⟨segment, inPath, own⟩ := exists_of_mem_pieces read member
  rw [Path.up_mem_components_iff] at descending
  exact descending (List.mem_filterMap.mpr ⟨segment, inPath, own.text_eq ▸ rfl⟩)

end PatternLint.Glob
