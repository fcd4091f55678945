import PatternLint.Proofs.Spellings
import PatternLint.Proofs.Targets

/-!
# Targets inside their base

Targets below a base that holds no wildcard start with the components of the base. A base that holds some is read as
a pattern itself: what it then stands for leads to a target in some tree (`exists_target_of_covers`), so targets stay
inside just when it stands for nothing but itself (`inside_exact`).
-/
namespace PatternLint

/-- Whether a component is an ordinary name. -/
def Path.Component.isName : Component → Bool
  | name _ => true
  | _ => false

/-- Whether a path is made of ordinary names. -/
def Path.isOrdinary (path : Path) : Bool := path.components.all (·.isName)

theorem FileSystem.entry?_ofLocations_singleton {location : Location} (below : location ≠ []) :
    FileSystem.entry? (.ofLocations [location]) location = some (.file ⟨#[]⟩) := by
  have own : isBelow location location = false := by simp [isBelow]
  simp [ofLocations, entry?, below, own]

namespace Targets

/-- Whether the targets of relative patterns start with the components of a base, whatever files there are. -/
def StaysInside (base : Path) : Prop :=
  ∀ (files : FileSystem) (patterns : List Text) (targets : List Path),
    (∀ pattern ∈ patterns, Path.isAbsolute ⟨pattern⟩ = false) → collect files base patterns = .ok targets →
      ∀ target ∈ targets, base.components <+: target.components

variable {base : Path}

/-! ### Ordinary bases -/

section
variable (ordinary : base.isOrdinary = true)
include ordinary

theorem isAbsolute_of_isOrdinary : base.isAbsolute = false := by
  cases absolute : base.isAbsolute with
  | false => rfl
  | true =>
    have top : .root ∈ base.components := by simp [Path.components_eq, Path.mark, absolute]
    cases List.all_eq_true.mp ordinary .root top

theorem startsHere_of_isOrdinary : base.startsHere = false := by
  rw [Bool.eq_false_iff, Ne, ← Path.here_mem_components_iff]
  intro member
  cases List.all_eq_true.mp ordinary .here member

theorem components_of_isOrdinary : base.components = base.steps := by
  rw [Path.components_of_not_startsHere (startsHere_of_isOrdinary ordinary),
    Path.dotless_of_relative (isAbsolute_of_isOrdinary ordinary)]

theorem isEntryName_of_isOrdinary (clean : '\x00' ∉ base.text) {segment : Text} (member : segment ∈ base.segments) :
    Path.isVoid segment = true ∨ isEntryName segment = true := by
  cases void : Path.isVoid segment with
  | true => exact .inl rfl
  | false =>
    rw [Bool.eq_false_iff, Ne, Path.isVoid_iff, not_or] at void
    refine .inr ((isEntryName_iff segment).mpr
      ⟨void.1, Path.not_mem_of_mem_segments member, fun nul => ?_, void.2, ?_⟩)
    · exact clean ((Text.exists_mem_splitOn_iff (by decide) base.text).mp ⟨segment, member, nul⟩)
    · rintro rfl
      have up : .up ∈ base.components := by
        rw [components_of_isOrdinary ordinary]
        exact List.mem_filterMap.mpr ⟨_, member, rfl⟩
      cases List.all_eq_true.mp ordinary .up up

theorem isVoid_head?_of_isOrdinary (filled : base.text ≠ []) :
    (base.openSegments.map Path.isVoid).head? = some false := by
  have first := Path.head?_openSegments filled
  cases own : base.openSegments with
  | nil => exact absurd own (Path.openSegments_ne_nil filled)
  | cons segment segments =>
    rw [own, List.head?_cons] at first
    have solid : Path.isVoid segment = false := by
      rw [Bool.eq_false_iff, Ne, Path.isVoid_iff]
      rintro (rfl | rfl)
      · exact Path.head?_segments_ne_nil filled (isAbsolute_of_isOrdinary ordinary) first.symm
      · have starts := startsHere_of_isOrdinary ordinary
        simp [Path.startsHere, ← first] at starts
    simp [solid]

/-! ### Inside the base -/

/-- A target below a base of names starts with these names, or matches a pattern, and then it starts with steps that
    the base stands for, read as a pattern. -/
theorem inside_or_covered {files : FileSystem} {patterns : List Text} {targets : List Path}
    (relative : ∀ pattern ∈ patterns, Path.isAbsolute ⟨pattern⟩ = false)
    (collected : collect files base patterns = .ok targets) {target : Path} (member : target ∈ targets) :
    base.components <+: target.components ∨ ∃ pattern ∈ patterns, Glob.isPattern pattern = true ∧
      StandsFor files base pattern target ∧ ∃ pieces lead rest, Glob.piecesOf base.openSegments = .ok pieces ∧
        Glob.Covers pieces lead ∧ target.dotless = lead ++ rest := by
  by_cases empty : base.text = []
  · exact .inl (by simp [Path.components_of_empty empty])
  · obtain ⟨pattern, listed, stands⟩ := standsFor_of_mem collected member
    have below := relative pattern listed
    cases stands with
    | path => exact .inl (by simp [Path.components_join below empty])
    | found wild parsed found =>
      obtain ⟨side, pieces, _, lead, rest, inBase, _, covers, _, steps⟩ :=
        covers_of_found below empty (isAbsolute_of_isOrdinary ordinary) parsed found
      exact .inr ⟨pattern, listed, wild, .found wild parsed found, pieces, lead, rest, inBase, covers,
        by rw [Path.dotless_of_relative side, steps]⟩

/-- Targets stay inside a base that stands for nothing but itself. -/
theorem staysInside_of_covers (undotted : Glob.Undotted base)
    (itself : ∀ pieces lead, Glob.piecesOf base.openSegments = .ok pieces → Glob.Covers pieces lead →
      lead = base.components) : StaysInside base := by
  intro files patterns targets relative collected target member
  rcases inside_or_covered ordinary relative collected member with inside | ⟨pattern, _, _, stands, rest⟩
  · exact inside
  · by_cases empty : base.text = []
    · simp [Path.components_of_empty empty]
    · obtain ⟨pieces, lead, rest, inBase, covers, spelled⟩ := rest
      have starts := startsHere_of_base empty (startsHere_of_isOrdinary ordinary) undotted stands
      rw [Path.components_of_not_startsHere starts, spelled, itself pieces lead inBase covers]
      exact List.prefix_append _ _

/-- What a base stands for, read as a pattern, leads to a match of the star below it in some tree. -/
theorem exists_found_of_covers (filled : base.text ≠ []) (clean : '\x00' ∉ base.text) (undotted : Glob.Undotted base)
    (single : ['*', '*'] ∉ base.segments) {pieces : List Glob.Piece}
    (read : Glob.piecesOf base.openSegments = .ok pieces) {lead : List Path.Component}
    (covers : Glob.Covers pieces lead) {glob : Glob.Pattern}
    (parsed : Glob.Pattern.ofText (base.join ⟨['*']⟩).text = .ok glob) : lead.length = base.components.length ∧
      ∃ files, ∃ other ∈ glob.files files, other.steps = lead ++ [.name ['a']] := by
  have onPath {segment : Text} := @Path.mem_segments_of_mem_openSegments base segment
  obtain ⟨segments, way, spells, void, same, names⟩ := covers.exists_spells read
    (fun segment member => isEntryName_of_isOrdinary ordinary clean (onPath member))
    (fun member => single (onPath member)) fun segment member => undotted segment (onPath member)
  refine ⟨?_, ?_⟩
  · rw [← same, components_of_isOrdinary ordinary, ← Path.filterMap_openSegments,
      Path.length_filterMap_component?, Path.length_filterMap_component?, void]
  -- a tree with a single file, where the base leads
  let file : Name := ⟨['a'], rfl⟩
  let files : FileSystem := .ofLocations [way ++ [file]]
  have there : files.entry? (way ++ [file]) = some (.file ⟨#[]⟩) := FileSystem.entry?_ofLocations_singleton (by simp)
  have top : files.entry? files.here = some .directory :=
    @FileSystem.entry?_of_holds files files.here (way ++ [file]) (by simp) (FileSystem.holds_of_eq_some there)
  have leads : (segments ++ [file.text]).filterMap Path.component? =
      (way ++ [file]).map fun name => .name name.text := by
    rw [List.filterMap_append, same, names, List.map_append]
    rfl
  have walked : files.walk files.here (segments ++ [file.text]) = .ok (way ++ [file]) := by
    refine FileSystem.walk_of_names leads there ?_
    rw [List.getLast?_concat]
    rintro last ⟨⟩
    rfl
  have star : Glob.piecesOf [['*']] = .ok [.wildcard [.sequence]] := by cbv
  have whole : Glob.Spells (pieces ++ [.wildcard [.sequence]]) (segments ++ [file.text]) :=
    spells.append (@Glob.Spells.wildcard [.sequence] file [] [] (by decide) .nil)
  have first : ((segments ++ [file.text]).map Path.isVoid).head? = some false := by
    rw [List.map_append, void, List.head?_append_of_ne_nil _ (by simp [Path.openSegments_ne_nil filled]),
      isVoid_head?_of_isOrdinary ordinary filled]
  obtain ⟨other, found, steps⟩ := Glob.exists_found_of_spells rfl filled (isAbsolute_of_isOrdinary ordinary) parsed
    (by decide) read star whole (Glob.filled_of_first first) (FileSystem.locate_dot top) walked there
  refine ⟨files, other, found, ?_⟩
  rw [steps, List.filterMap_append, same]
  rfl

/-- So it leads to a target. -/
theorem exists_target_of_covers (filled : base.text ≠ []) (clean : '\x00' ∉ base.text) (undotted : Glob.Undotted base)
    (single : ['*', '*'] ∉ base.segments) {pieces : List Glob.Piece}
    (read : Glob.piecesOf base.openSegments = .ok pieces) {lead : List Path.Component}
    (covers : Glob.Covers pieces lead) : lead.length = base.components.length ∧
      ∃ files targets, collect files base [['*']] = .ok targets ∧
        ∃ target ∈ targets, target.components = lead ++ [.name ['a']] := by
  have ground := isAbsolute_of_isOrdinary ordinary
  have below : Path.isAbsolute ⟨['*']⟩ = false := rfl
  obtain ⟨glob, parsed⟩ : ∃ glob, Glob.Pattern.ofText (base.join ⟨['*']⟩).text = .ok glob :=
    Glob.exists_ofText_join below filled ground (by decide) read (by cbv)
  obtain ⟨long, files, other, found, steps⟩ :=
    exists_found_of_covers ordinary filled clean undotted single read covers parsed
  have collected : collect files base [['*']] = .ok (Ordered.ofList Path.order (glob.files files)) := by
    simp [collect, ofPatterns, ofPattern, parsed, Glob.isPattern]
  have stands : StandsFor files base ['*'] other := .found (by decide) parsed found
  have starts := startsHere_of_base filled (startsHere_of_isOrdinary ordinary) undotted stands
  have side := (Glob.isAbsolute_of_found parsed found).trans (Path.isAbsolute_join below filled)
  obtain ⟨target, member, spelled⟩ := exists_target collected List.mem_cons_self stands
  refine ⟨long, files, _, collected, target, member, ?_⟩
  rw [spelled, Path.components_of_not_startsHere starts, Path.dotless_of_relative (side.trans ground), steps]

/-- A base without wildcards stands for nothing but itself. -/
theorem eq_components_of_plain (plain : Glob.isPattern base.text = false) {pieces : List Glob.Piece}
    (read : Glob.piecesOf base.openSegments = .ok pieces) {lead : List Path.Component}
    (covers : Glob.Covers pieces lead) : lead = base.components := by
  rw [Glob.piecesOf_of_plain plain read] at covers
  rw [covers.of_literals, Path.filterMap_openSegments, components_of_isOrdinary ordinary]

/-- Targets below a base of names start with these names if the base holds no wildcard. Otherwise a target that does
    not matches a pattern, and starts with steps that the base stands for. Without dotted wildcards and double stars,
    all targets are inside just when the base stands for nothing but itself. -/
theorem inside_exact :
    (Glob.isPattern base.text = false → StaysInside base) ∧
    (∀ files patterns targets, (∀ pattern ∈ patterns, Path.isAbsolute ⟨pattern⟩ = false) →
      collect files base patterns = .ok targets → ∀ target ∈ targets, base.components <+: target.components ∨
        ∃ pattern ∈ patterns, Glob.isPattern pattern = true ∧ StandsFor files base pattern target ∧
          ∃ pieces lead rest, Glob.piecesOf base.openSegments = .ok pieces ∧ Glob.Covers pieces lead ∧
            target.dotless = lead ++ rest) ∧
    ('\x00' ∉ base.text → Glob.Undotted base → ['*', '*'] ∉ base.segments →
      (StaysInside base ↔ ∀ pieces lead, Glob.piecesOf base.openSegments = .ok pieces → Glob.Covers pieces lead →
        lead = base.components)) := by
  refine ⟨fun plain => ?_, fun files patterns targets relative collected target member =>
    inside_or_covered ordinary relative collected member, fun clean undotted single => ?_⟩
  · exact staysInside_of_covers ordinary (Glob.undotted_of_plain plain)
      fun pieces lead read covers => eq_components_of_plain ordinary plain read covers
  · refine ⟨fun stays pieces lead read covers => ?_, staysInside_of_covers ordinary undotted⟩
    by_cases empty : base.text = []
    · exact eq_components_of_plain ordinary (by simp [empty, Glob.isPattern]) read covers
    · obtain ⟨long, files, targets, collected, target, member, spelled⟩ :=
        exists_target_of_covers ordinary empty clean undotted single read covers
      obtain ⟨rest, inside⟩ := stays files _ targets (by decide) collected target member
      rw [spelled] at inside
      exact (List.append_inj inside long.symm).1.symm

end

/-- A pattern below a base of two names. -/
theorem inside_exact_two_names :
    Path.isOrdinary ⟨"x/y".toList⟩ = true ∧
    collect (.ofLocations [[⟨['x'], rfl⟩, ⟨['y'], rfl⟩, ⟨['a'], rfl⟩]]) ⟨"x/y".toList⟩ [['*']] =
      .ok [⟨"x/y/a".toList⟩] ∧
    StaysInside ⟨"x/y".toList⟩ :=
  ⟨by decide, by cbv, (inside_exact (by decide)).1 (by decide)⟩

/-- A base with brackets in its name stands for another directory beside it. -/
theorem outside_of_brackets :
    Path.isOrdinary ⟨"b[1]".toList⟩ = true ∧
    collect (.ofLocations [[⟨"b1".toList, rfl⟩, ⟨"x.strudel".toList, rfl⟩],
      [⟨"b[1]".toList, rfl⟩, ⟨"x.strudel".toList, rfl⟩]]) ⟨"b[1]".toList⟩ ["*.strudel".toList] =
        .ok [⟨"b1/x.strudel".toList⟩] ∧
    ¬ Path.components ⟨"b[1]".toList⟩ <+: Path.components ⟨"b1/x.strudel".toList⟩ :=
  ⟨by decide, by cbv, by decide⟩

end Targets
end PatternLint
