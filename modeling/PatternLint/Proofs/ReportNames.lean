import PatternLint.Proofs.Targets

/-!
# Names of entries

A target is named by the way to it from the base, which is found by components alone. The name leads back to the
target if the target goes on from the base, or if the base is the current directory (`namedBelow_iff`). A base that
goes on from a dot is not found again in what matches a pattern, as matches are spelled without the dot
(`named_exact`).
-/
namespace PatternLint

namespace Path

/-! ### Ways from a base -/

theorem stepsFrom_append (base rest : List Component) : stepsFrom false (base ++ rest) base = some rest := by
  induction base with
  | nil => rw [List.nil_append, stepsFrom]
  | cons component base ih =>
    rw [List.cons_append, stepsFrom, if_pos (by simp)]
    exact ih

theorem stepsFrom_nil (started : Bool) (base : List Component) :
    stepsFrom started [] base = some (base.map fun _ => .up) := by
  induction base generalizing started with
  | nil => rw [stepsFrom, List.map_nil]
  | cons component base ih =>
    rw [stepsFrom, ih]
    rfl

/-- A way takes back components of the base and goes on by components of the path. -/
theorem mem_stepsFrom {started : Bool} {path base steps : List Component}
    (found : stepsFrom started path base = some steps) {component : Component} (member : component ∈ steps) :
    component = .up ∨ component ∈ path := by
  fun_induction stepsFrom started path base generalizing steps with
  | case1 =>
    cases found
    exact .inr member
  | case2 _ _ base ih =>
    obtain ⟨rest, onward, rfl⟩ := Option.map_eq_some_iff.mp found
    exact (List.mem_cons.mp member).elim .inl (ih onward)
  | case3 _ first path _ base _ ih => exact (ih found member).imp_right (List.mem_cons_of_mem first)
  | case4 _ first path base _ ih =>
    obtain ⟨rest, onward, rfl⟩ := Option.map_eq_some_iff.mp found
    rcases List.mem_cons.mp member with rfl | later
    · exact .inr List.mem_cons_self
    · exact (ih onward later).imp_right (List.mem_cons_of_mem first)
  | case5 => cases found
  | case6 _ first path _ base =>
    cases found
    rw [List.cons_append, List.mem_cons, List.mem_append] at member
    rcases member with up | back | own
    · exact .inl up
    · obtain ⟨_, _, up⟩ := List.mem_map.mp back
      exact .inl up.symm
    · exact .inr own

section
variable {base : List Component} (descending : .up ∉ base) (grounded : .here ∉ base)
include descending grounded

/-- Once a component is passed along, all that are left of the base are taken back. -/
theorem up_mem_stepsFrom_true (some_component : base ≠ []) (path : List Component) :
    ∃ steps, stepsFrom true path base = some steps ∧ .up ∈ steps := by
  obtain ⟨component, base, rfl⟩ := List.exists_cons_of_ne_nil some_component
  cases path with
  | nil => exact ⟨_, stepsFrom_nil true _, by simp⟩
  | cons first path =>
    have other : component ≠ .here := fun same => grounded (by simp [same])
    have down : component ≠ .up := fun same => descending (by simp [same])
    exact ⟨_, by rw [stepsFrom, if_neg (by simp), if_neg other, if_neg down], by simp⟩

/-- The way to a path that does not go on from the base leads up. -/
theorem up_mem_stepsFrom {path : List Component} (outside : ¬ base <+: path) :
    ∃ steps, stepsFrom false path base = some steps ∧ .up ∈ steps := by
  induction base generalizing path with
  | nil => exact absurd List.nil_prefix outside
  | cons component base ih =>
    cases path with
    | nil => exact ⟨_, stepsFrom_nil false _, by simp⟩
    | cons first path =>
      have other : component ≠ .here := fun same => grounded (by simp [same])
      have down : component ≠ .up := fun same => descending (by simp [same])
      by_cases same : first = component
      · rw [stepsFrom, if_pos (by simp [same])]
        refine ih (fun member => descending (by simp [member])) (fun member => grounded (by simp [member])) ?_
        rwa [same, List.cons_prefix_cons, eq_self, true_and] at outside
      · exact ⟨_, by rw [stepsFrom, if_neg (by simp [same]), if_neg other, if_neg down], by simp⟩

end

/-- The way to a path that does not go on from a base leads up, unless the base is the current directory. -/
theorem exists_way_up {base path : Path} (descending : .up ∉ base.components)
    (outside : ¬ base.components <+: path.components) (many : base.components ≠ [.here]) :
    ∃ steps, stepsFrom false path.components base.components = some steps ∧ .up ∈ steps := by
  cases starts : base.startsHere with
  | false =>
    have grounded : .here ∉ base.components := by
      rw [here_mem_components_iff]
      simp [starts]
    exact up_mem_stepsFrom descending grounded outside
  | true =>
    have own := components_of_startsHere starts
    have grounded : .here ∉ base.steps := fun member => (isStep_of_mem_steps member).ne_here rfl
    have down : .up ∉ base.steps := by rwa [← up_mem_components_iff]
    rw [own] at outside many ⊢
    cases alsoStarts : path.startsHere with
    | true =>
      have other := components_of_startsHere alsoStarts
      rw [other, List.cons_prefix_cons, eq_self, true_and] at outside
      rw [other, stepsFrom, if_pos (by simp)]
      exact up_mem_stepsFrom down grounded outside
    | false =>
      have there : .here ∉ path.components := by
        rw [here_mem_components_iff]
        simp [alsoStarts]
      cases parts : path.components with
      | nil => exact ⟨_, stepsFrom_nil false _, by simp⟩
      | cons first rest =>
        have other : first ≠ .here := fun same => there (by simp [parts, same])
        obtain ⟨steps, found, up⟩ := up_mem_stepsFrom_true down grounded (by simpa using many) rest
        refine ⟨first :: steps, ?_, List.mem_cons_of_mem first up⟩
        rw [stepsFrom, if_neg (by simp [other]), if_pos rfl, found]
        rfl

theorem components_ne_nil_of_text {path : Path} (filled : path.text ≠ []) : path.components ≠ [] := by
  intro none
  rw [components_eq, List.append_eq_nil_iff, mark] at none
  obtain ⟨unmarked, unstepped⟩ := none
  obtain ⟨first, rest, pieces⟩ := List.exists_cons_of_ne_nil path.segments_ne_nil
  have void : isVoid first = true :=
    (component?_eq_none_iff first).mp (List.filterMap_eq_nil_iff.mp unstepped first (by simp [pieces]))
  have relative : path.isAbsolute = false := by
    rw [Bool.eq_false_iff]
    intro absolute
    simp [absolute] at unmarked
  -- the first piece is neither a step nor empty, so it is a dot, and that is a component
  rcases (isVoid_iff first).mp void with rfl | rfl
  · exact head?_segments_ne_nil filled relative (by simp [pieces])
  · simp [relative, startsHere, pieces] at unmarked

theorem exists_isStep_of_getLast? {path : Path} (some_step : path.steps ≠ []) :
    ∃ component ∈ path.components.getLast?, component.IsStep := by
  obtain ⟨component, last⟩ := Option.ne_none_iff_exists'.mp (mt List.getLast?_eq_none_iff.mp some_step)
  refine ⟨component, ?_, isStep_of_mem_steps (List.mem_of_getLast? last)⟩
  rw [components_eq, List.getLast?_append_of_ne_nil _ some_step, last]
  rfl

end Path

/-- A path that goes on from a base by components, the last of them a step, leads where any path of the same steps
    does. -/
theorem FileSystem.locate_join_ofComponents {files : FileSystem} {base target : Path} {components : List Path.Component}
    (own : ∀ component ∈ components, component = .here ∨ component.IsStep)
    (last : ∃ component ∈ components.getLast?, component.IsStep)
    (same : (base.join (.ofComponents components)).dotless = target.dotless) {location : Location} {entry : Entry}
    (found : files.locate target = .ok (location, entry)) :
    files.locate (base.join (.ofComponents components)) = .ok (location, entry) := by
  obtain ⟨component, ends, step⟩ := last
  have filled : components ≠ [] := by
    rintro rfl
    cases ends
  have relative := Path.isAbsolute_ofComponents own
  have segments := Path.segments_ofComponents own filled
  have lastSegment : (base.join (.ofComponents components)).segments.getLast? = some component.text := by
    have inside : (Path.ofComponents components).segments.getLast? = some component.text := by
      rw [segments, List.getLast?_map, Option.mem_def.mp ends, Option.map_some]
    by_cases empty : base.text = []
    · rw [Path.join_of_empty empty, inside]
    · rw [Path.segments_join relative empty, List.getLast?_append_of_ne_nil _ (Path.segments_ne_nil _), inside]
  have spelled : (base.join (.ofComponents components)).text ≠ [] := by
    intro empty
    rw [Path.segments, empty] at lastSegment
    exact step.text_ne_nil (Option.some.inj lastSegment).symm
  rcases locate_of_steps found (Path.isAbsolute_eq_of_dotless same) (Path.steps_eq_of_dotless same) spelled with
    reached | ⟨_, _, segment, closes, void⟩
  · exact reached
  · cases lastSegment.symm.trans closes
    rw [← Path.component?_eq_none_iff, step.component?_text] at void
    cases void

namespace Targets

/-- How a target is named from a base: by its own path, by what follows the base, by its components as seen from the
    current directory, or by a way up. -/
inductive Named (base target : Path) : Path → Prop
  | absolute : target.isAbsolute = true → Named base target target
  | below {rest : List Path.Component} : target.isAbsolute = false → target.components = base.components ++ rest →
      Named base target (.ofComponents rest)
  | fromHere : target.isAbsolute = false → base.components = [.here] → target.startsHere = false →
      Named base target (.ofComponents target.components)
  | upwards {steps : List Path.Component} : target.isAbsolute = false → ¬ base.components <+: target.components →
      base.components ≠ [.here] → .up ∈ steps → (∀ component ∈ steps, component = .up ∨ component ∈ target.components) →
      Named base target (.ofComponents steps)

/-- Whether the name of a target leads to it from the base, and not upwards. -/
def NamedBelow (base target : Path) : Prop :=
  .up ∉ Path.components ⟨nameFrom base target⟩ ∧ (base.join ⟨nameFrom base target⟩).dotless = target.dotless

section
variable {base target : Path} (relative : base.isAbsolute = false) (descending : .up ∉ base.components)
  (filled : base.text ≠ [] → target.text ≠ [])
include relative descending filled

theorem named_nameFrom : Named base target ⟨nameFrom base target⟩ := by
  have named (path : Path) (way : target.relativeTo? base = some path) (named : Named base target path) :
      Named base target ⟨nameFrom base target⟩ := by
    rwa [nameFrom, way, Option.getD_some]
  cases side : target.isAbsolute with
  | true =>
    refine named target ?_ (.absolute side)
    rw [Path.relativeTo?, side, relative]
    rfl
  | false =>
    have way : target.relativeTo? base =
        (Path.stepsFrom false target.components base.components).map .ofComponents := by
      rw [Path.relativeTo?, side, relative, if_pos rfl]
    by_cases inside : base.components <+: target.components
    · obtain ⟨rest, same⟩ := inside
      refine named _ ?_ (.below side same.symm)
      rw [way, ← same, Path.stepsFrom_append, Option.map_some]
    by_cases here : base.components = [.here]
    · have there : .here ∉ target.components := by
        rw [Path.here_mem_components_iff]
        intro starts
        exact inside (by simp [here, Path.components_of_startsHere starts])
      refine named _ ?_ (.fromHere side here (by simpa [Path.here_mem_components_iff] using there))
      cases parts : target.components with
      | nil =>
        have starts : base.startsHere = true := (Path.here_mem_components_iff base).mp (by simp [here])
        exact absurd parts (Path.components_ne_nil_of_text (filled (Path.text_ne_nil_of_startsHere starts)))
      | cons first rest =>
        have other : first ≠ .here := fun same => there (by simp [parts, same])
        rw [way, parts, here, Path.stepsFrom, if_neg (by simp [other]), if_pos rfl, Path.stepsFrom]
        rfl
    · obtain ⟨steps, found, up⟩ := Path.exists_way_up descending inside here
      exact named _ (by rw [way, found, Option.map_some])
        (.upwards side inside here up fun component => Path.mem_stepsFrom found)

/-- A target is named below the base when it goes on from the base, or when the base is the current directory and the
    target does not lead up. -/
theorem namedBelow_iff : NamedBelow base target ↔ .up ∉ target.components ∧
    (target.isAbsolute = true ∨ base.components <+: target.components ∨ base.components = [.here]) := by
  have named := named_nameFrom relative descending filled
  rw [NamedBelow]
  generalize (⟨nameFrom base target⟩ : Path) = name at named
  have own (side : target.isAbsolute = false) : ∀ component ∈ target.components, component = .here ∨ component.IsStep :=
    fun component => Path.here_or_isStep_of_mem_components side
  cases named with
  | absolute side => simp [Path.join_of_isAbsolute base side, side]
  | @below rest side same =>
    have ownRest : ∀ component ∈ rest, component = .here ∨ component.IsStep := fun component member =>
      own side component (by simp [same, member])
    rw [Path.up_mem_components_iff, Path.dotless_join base (Path.isAbsolute_ofComponents ownRest),
      Path.steps_ofComponents ownRest, Path.dotless.eq_def target, same, List.filter_append, ← Path.dotless]
    simp [descending]
  | fromHere side here there =>
    rw [Path.up_mem_components_iff, Path.dotless_join base (Path.isAbsolute_ofComponents (own side)),
      Path.steps_ofComponents (own side), Path.dotless.eq_def base, here]
    simp [Path.dotless]
  | @upwards steps side outside many up ownSteps =>
    have written : ∀ component ∈ steps, component = .here ∨ component.IsStep := fun component member =>
      (ownSteps component member).elim (fun same => .inr (same ▸ .up)) (own side component)
    rw [Path.up_mem_components_iff, Path.steps_ofComponents written]
    simp [up, side, outside, many]

/-- The name of a target, followed from the base, leads to the target itself. -/
theorem locate_of_namedBelow (below : NamedBelow base target) (other : target.dotless ≠ base.dotless)
    {files : FileSystem} {location : Location} {entry : Entry} (found : files.locate target = .ok (location, entry)) :
    files.locate (base.join ⟨nameFrom base target⟩) = .ok (location, entry) := by
  have named := named_nameFrom relative descending filled
  obtain ⟨down, same⟩ := below
  generalize (⟨nameFrom base target⟩ : Path) = name at named down same
  have own (side : target.isAbsolute = false) : ∀ component ∈ target.components, component = .here ∨ component.IsStep :=
    fun component => Path.here_or_isStep_of_mem_components side
  cases named with
  | absolute side => rwa [Path.join_of_isAbsolute base side]
  | @below rest side parts =>
    have ownRest : ∀ component ∈ rest, component = .here ∨ component.IsStep := fun component member =>
      own side component (by simp [parts, member])
    have some_step : target.steps ≠ [] := by
      intro none
      have empty : target.dotless = [] := by rw [Path.dotless_of_relative side, none]
      have apart := empty
      rw [Path.dotless, parts, List.filter_append, ← Path.dotless, List.append_eq_nil_iff] at apart
      exact other (empty.trans apart.1.symm)
    have more : rest ≠ [] := by
      rintro rfl
      rw [List.append_nil] at parts
      exact other (by rw [Path.dotless, parts, Path.dotless])
    refine FileSystem.locate_join_ofComponents ownRest ?_ same found
    rw [← List.getLast?_append_of_ne_nil base.components more, ← parts]
    exact Path.exists_isStep_of_getLast? some_step
  | fromHere side here there =>
    have some_step : target.steps ≠ [] := by
      intro none
      refine other ?_
      rw [Path.dotless_of_relative side, none, Path.dotless, here]
      rfl
    exact FileSystem.locate_join_ofComponents (own side) (Path.exists_isStep_of_getLast? some_step) same found
  | @upwards steps side _ _ up ownSteps =>
    have written : ∀ component ∈ steps, component = .here ∨ component.IsStep := fun component member =>
      (ownSteps component member).elim (fun same => .inr (same ▸ .up)) (own side component)
    rw [Path.up_mem_components_iff, Path.steps_ofComponents written] at down
    exact absurd (List.mem_filter.mpr ⟨up, by simp⟩) down

end

/-! ### Names in a report -/

section
variable {files : FileSystem} {base : Path} {patterns : List Text} {targets : List Path}

theorem text_ne_nil_of_standsFor {pattern : Text} {path : Path} (filled : base.text ≠ [])
    (stands : StandsFor files base pattern path) : path.text ≠ [] := by
  cases stands with
  | path => exact Path.text_join_ne_nil filled _
  | @found glob path _ _ found =>
    obtain ⟨_, isFile, _⟩ := (Glob.mem_files_iff files glob path).mp found
    obtain ⟨location, contents, located⟩ := FileSystem.isFile_iff.mp isFile
    exact (FileSystem.locate_eq_ok_iff.mp located).2.1

theorem up_not_mem_of_standsFor {pattern : Text} {path : Path} (descending : .up ∉ base.components)
    (steady : .up ∉ Path.components ⟨pattern⟩) (plain : Glob.isPattern base.text = false)
    (undotted : Glob.Undotted ⟨pattern⟩) (stands : StandsFor files base pattern path) : .up ∉ path.components := by
  have joined := Path.up_not_mem_join descending steady
  cases stands with
  | path => exact joined
  | found _ parsed found =>
    exact Glob.up_not_mem_of_found parsed (Glob.undotted_join (Glob.undotted_of_plain plain) undotted) joined found

/-- What a pattern below a base without wildcards stands for starts at the top or goes on from the base, but for what
    matches a relative pattern below a base that starts with a dot. -/
theorem continues_of_standsFor (relative : base.isAbsolute = false) (plain : Glob.isPattern base.text = false)
    {pattern : Text} {path : Path} (stands : StandsFor files base pattern path)
    (spelled : base.startsHere = false ∨ Glob.isPattern pattern = false ∨ Path.isAbsolute ⟨pattern⟩ = true) :
    path.isAbsolute = true ∨ base.components <+: path.components := by
  cases absolute : Path.isAbsolute ⟨pattern⟩ with
  | true =>
    left
    cases stands with
    | path => rwa [Path.join_of_isAbsolute base absolute]
    | found _ parsed found => rw [Glob.isAbsolute_of_found parsed found, Path.join_of_isAbsolute base absolute, absolute]
  | false =>
    right
    by_cases empty : base.text = []
    · simp [Path.components_of_empty empty]
    · cases stands with
      | path => simp [Path.components_join absolute empty]
      | @found glob path wild parsed found =>
        have there : base.startsHere = false := by simpa [wild, absolute] using spelled
        have starts := startsHere_of_base empty there (Glob.undotted_of_plain plain) (.found wild parsed found)
        obtain ⟨side, lead, _, first, second, inBase, _, covers, _, steps⟩ :=
          covers_of_found absolute empty relative parsed found
        rw [Glob.piecesOf_of_plain plain inBase] at covers
        rw [Path.components_of_not_startsHere there, Path.components_of_not_startsHere starts,
          Path.dotless_of_relative relative, Path.dotless_of_relative side, steps, covers.of_literals,
          Path.filterMap_openSegments]
        exact List.prefix_append _ _

theorem text_ne_nil_of_mem (collected : collect files base patterns = .ok targets) {target : Path}
    (member : target ∈ targets) (filled : base.text ≠ []) : target.text ≠ [] := by
  obtain ⟨pattern, _, stands⟩ := standsFor_of_mem collected member
  exact text_ne_nil_of_standsFor filled stands

/-- What matches a relative pattern below a base that goes on from a dot is not named below the base. -/
theorem eq_here_of_named (relative : base.isAbsolute = false) (descending : .up ∉ base.components)
    (collected : collect files base patterns = .ok targets) (named : ∀ target ∈ targets, NamedBelow base target)
    (starts : base.startsHere = true) {pattern : Text} (listed : pattern ∈ patterns)
    (inside : Path.isAbsolute ⟨pattern⟩ = false) {glob : Glob.Pattern} (wild : Glob.isPattern pattern = true)
    (parsed : Glob.Pattern.ofText (base.join ⟨pattern⟩).text = .ok glob)
    (undotted : Glob.Undotted (base.join ⟨pattern⟩)) {path : Path} (found : path ∈ glob.files files) :
    base.components = [.here] := by
  obtain ⟨target, kept, same⟩ := exists_target collected listed (.found wild parsed found)
  obtain ⟨startsSame, dotless⟩ := (Path.components_eq_iff _ _).mp same
  -- the match is spelled without the dot of the base
  have there := Glob.startsHere_of_undotted parsed undotted found
  have side := Glob.isAbsolute_of_found parsed found
  rw [Path.isAbsolute_join inside (Path.text_ne_nil_of_startsHere starts), relative,
    ← Path.isAbsolute_eq_of_dotless dotless] at side
  obtain ⟨_, absolute | continues | here⟩ :=
    (namedBelow_iff relative descending (text_ne_nil_of_mem collected kept)).mp (named target kept)
  · rw [side] at absolute
    cases absolute
  · have here := continues.subset ((Path.here_mem_components_iff base).mpr starts)
    rw [Path.here_mem_components_iff, startsSame, there] at here
    cases here
  · exact here

/-- Every entry is that of a target. The name of a target is one below the base just when the target does not lead up
    and starts at the top or goes on from the base, if this is not the current directory; and then it leads to the
    target. Without wildcards in the base and dotted ones in the patterns all names are such, unless the base goes on
    from a dot and a relative pattern matches. -/
theorem named_exact (relative : base.isAbsolute = false) (descending : .up ∉ base.components)
    (steady : ∀ pattern ∈ patterns, .up ∉ Path.components ⟨pattern⟩)
    (collected : collect files base patterns = .ok targets) :
    (lint files base targets).files.Perm (targets.map (entry files base)) ∧
    (∀ target ∈ targets, (entry files base target).file = nameFrom base target ∧
      (NamedBelow base target ↔ .up ∉ target.components ∧
        (target.isAbsolute = true ∨ base.components <+: target.components ∨ base.components = [.here])) ∧
      (NamedBelow base target → target.dotless ≠ base.dotless → ∀ location entry,
        files.locate target = .ok (location, entry) →
          files.locate (base.join ⟨nameFrom base target⟩) = .ok (location, entry))) ∧
    (Glob.isPattern base.text = false → (∀ pattern ∈ patterns, Glob.Undotted ⟨pattern⟩) →
      ((∀ target ∈ targets, NamedBelow base target) ↔ base.startsHere = false ∨ base.components = [.here] ∨
        ∀ pattern ∈ patterns, Glob.isPattern pattern = true → Path.isAbsolute ⟨pattern⟩ = false →
          ∀ path, ¬ StandsFor files base pattern path)) := by
  refine ⟨List.mergeSort_perm _ _, fun target member => ?_, fun plain undotted => ⟨fun named => ?_, fun spelled => ?_⟩⟩
  · have filled := text_ne_nil_of_mem collected member
    exact ⟨entry_file files base target, namedBelow_iff relative descending filled,
      fun below other location entry => locate_of_namedBelow relative descending filled below other⟩
  · by_contra elsewhere
    push Not at elsewhere
    obtain ⟨starts, more, pattern, listed, wild, inside, path, stands⟩ := elsewhere
    rw [Ne, Bool.not_eq_false] at starts
    obtain ⟨glob, parsed, found⟩ := (standsFor_iff_of_wild wild).mp stands
    exact more (eq_here_of_named relative descending collected named starts listed inside wild parsed
      (Glob.undotted_join (Glob.undotted_of_plain plain) (undotted pattern listed)) found)
  · intro target member
    obtain ⟨pattern, listed, stands⟩ := standsFor_of_mem collected member
    refine (namedBelow_iff relative descending (text_ne_nil_of_mem collected member)).mpr
      ⟨up_not_mem_of_standsFor descending (steady pattern listed) plain (undotted pattern listed) stands, ?_⟩
    have continues (own : base.startsHere = false ∨ Glob.isPattern pattern = false ∨ Path.isAbsolute ⟨pattern⟩ = true) :=
      continues_of_standsFor relative plain stands own
    rcases spelled with there | here | none
    · exact (continues (.inl there)).imp_right .inl
    · exact .inr (.inr here)
    · refine (continues (.inr ?_)).imp_right .inl
      by_contra both
      rw [not_or, Bool.not_eq_false, Bool.not_eq_true] at both
      exact none pattern listed both.1 both.2 target stands

/-- A match below a named base. -/
theorem named_exact_named_base :
    collect (.ofLocations [[⟨['x'], rfl⟩, ⟨['a'], rfl⟩]]) ⟨['x']⟩ [['*']] = .ok [⟨"x/a".toList⟩] ∧
      NamedBelow ⟨['x']⟩ ⟨"x/a".toList⟩ :=
  have collected : collect (.ofLocations [[⟨['x'], rfl⟩, ⟨['a'], rfl⟩]]) ⟨['x']⟩ [['*']] = .ok [⟨"x/a".toList⟩] := by cbv
  ⟨collected, (named_exact (by decide) (by decide) (by decide) collected).2.2 (by decide) (by decide) |>.mpr
    (.inl (by decide)) _ (by decide)⟩

/-- A match below a base that goes on from a dot is named by a way up, and this leads nowhere. -/
theorem upwards_from_dotted_base :
    .up ∉ Path.components ⟨"./x".toList⟩ ∧
    collect (.ofLocations [[⟨['x'], rfl⟩, ⟨"a.strudel".toList, rfl⟩]]) ⟨"./x".toList⟩ ["*.strudel".toList] =
      .ok [⟨"x/a.strudel".toList⟩] ∧
    nameFrom ⟨"./x".toList⟩ ⟨"x/a.strudel".toList⟩ = "x/../a.strudel".toList ∧
    ¬ NamedBelow ⟨"./x".toList⟩ ⟨"x/a.strudel".toList⟩ ∧
    FileSystem.locate (.ofLocations [[⟨['x'], rfl⟩, ⟨"a.strudel".toList, rfl⟩]])
      (Path.join ⟨"./x".toList⟩ ⟨"x/../a.strudel".toList⟩) = .error .notFound := by
  have named : nameFrom ⟨"./x".toList⟩ ⟨"x/a.strudel".toList⟩ = "x/../a.strudel".toList := by decide
  refine ⟨by decide, by cbv, named, fun below => below.1 ?_, by cbv⟩
  rw [named]
  decide

end

end Targets
end PatternLint
