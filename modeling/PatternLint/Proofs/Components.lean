import Mathlib.Data.List.Basic
import PatternLint.Path.Relative
import PatternLint.Proofs.Text

/-!
# The components of paths

The components of a path are a mark at its start, the top or a dot, and the steps that its pieces name
(`components_eq`). A path below a base has the steps of the base and then its own (`components_join`), a path made
of components has their steps (`steps_ofComponents`), and paths compare equal when their components are the same
(`order_eq_iff`). Two paths that differ only in dots have the same `dotless` components.
-/
namespace PatternLint.Path

/-- The components that the pieces of a path name, without a mark at its start. -/
def steps (path : Path) : List Component := path.segments.filterMap component?

/-- Whether a path starts with a dot for the current directory. -/
def startsHere (path : Path) : Bool := path.segments.head? = some ['.']

/-- The components of a path without its dots. -/
def dotless (path : Path) : List Component := path.components.filter (· ≠ .here)

/-- What a path has in front of its steps. -/
def mark (path : Path) : List Component :=
  if path.isAbsolute then [.root] else if path.startsHere then [.here] else []

/-! ### Steps -/

/-- A component that is named by a piece of a path. -/
inductive Component.IsStep : Component → Prop
  | up : IsStep .up
  | name {text : Text} : isVoid text = false → text ≠ ['.', '.'] → '/' ∉ text → IsStep (.name text)

theorem Component.IsStep.ne_here {component : Component} (step : component.IsStep) : component ≠ .here := by
  cases step <;> simp

theorem Component.IsStep.not_mem_text {component : Component} (step : component.IsStep) : '/' ∉ component.text := by
  cases step with
  | up => decide
  | name _ _ free => exact free

theorem Component.IsStep.text_ne_nil {component : Component} (step : component.IsStep) : component.text ≠ [] := by
  cases step with
  | up => decide
  | name solid =>
    rintro rfl
    cases solid

/-- A step is named by its text. -/
theorem Component.IsStep.component?_text {component : Component} (step : component.IsStep) :
    component? component.text = some component := by
  cases step with
  | up => rfl
  | name solid other =>
    rw [component?, Component.text, solid, if_neg Bool.false_ne_true, if_neg other]

theorem isStep_of_component? {segment : Text} {component : Component} (free : '/' ∉ segment)
    (named : component? segment = some component) : component.IsStep := by
  rw [component?] at named
  split at named
  · cases named
  · next solid =>
    split at named
    · cases named
      exact .up
    · next other =>
      cases named
      exact .name (by simpa using solid) other free

theorem isVoid_iff (segment : Text) : isVoid segment = true ↔ segment = [] ∨ segment = ['.'] := by
  rw [isVoid, Bool.or_eq_true, List.isEmpty_iff, decide_eq_true_eq]

theorem component?_eq_none_iff (segment : Text) : component? segment = none ↔ isVoid segment = true := by
  rw [component?]
  split
  · next void => simp [void]
  · next solid =>
    rw [Bool.not_eq_true] at solid
    split <;> simp [solid]

theorem component?_eq_up_iff (segment : Text) : component? segment = some .up ↔ segment = ['.', '.'] := by
  rw [component?]
  split
  · next void =>
    simp only [reduceCtorEq, false_iff]
    rintro rfl
    cases void
  · split <;> simp [*]

theorem not_mem_of_mem_segments {path : Path} {segment : Text} (member : segment ∈ path.segments) : '/' ∉ segment :=
  Text.not_mem_of_mem_splitOn member

theorem isStep_of_mem_steps {path : Path} {component : Component} (member : component ∈ path.steps) :
    component.IsStep := by
  obtain ⟨segment, inPath, named⟩ := List.mem_filterMap.mp member
  exact isStep_of_component? (not_mem_of_mem_segments inPath) named

theorem filter_ne_here_of_isStep {components : List Component} (steps : ∀ component ∈ components, component.IsStep) :
    components.filter (· ≠ .here) = components :=
  List.filter_eq_self.mpr fun component member => by simpa using (steps component member).ne_here

/-- The pieces that count are the texts of the steps that they name. -/
theorem filter_solid (segments : List Text) :
    segments.filter (!isVoid ·) = (segments.filterMap component?).map (·.text) := by
  induction segments with
  | nil => rfl
  | cons segment segments ih =>
    cases void : isVoid segment with
    | true => simp [void, (component?_eq_none_iff segment).mpr void, ih]
    | false =>
      obtain ⟨component, named, text⟩ : ∃ component, component? segment = some component ∧ component.text = segment := by
        rw [component?, void, if_neg Bool.false_ne_true]
        split
        · next up => exact ⟨.up, rfl, up.symm⟩
        · exact ⟨.name segment, rfl, rfl⟩
      simp [void, named, text, ih]

theorem toList_component?_append (segment : Text) (segments : List Text) :
    (component? segment).toList ++ segments.filterMap component? = (segment :: segments).filterMap component? := by
  cases named : component? segment <;> simp [named]

/-- There are as many components as there are pieces that count. -/
theorem length_filterMap_component? (segments : List Text) :
    (segments.filterMap component?).length = (segments.map isVoid).count false := by
  have texts := congrArg List.length (filter_solid segments)
  rw [List.length_map, ← List.countP_eq_length_filter] at texts
  rw [← texts, List.count, List.countP_map]
  exact List.countP_congr fun segment _ => by simp

theorem solid_segments (path : Path) : path.segments.filter (!isVoid ·) = path.steps.map (·.text) :=
  filter_solid path.segments

/-- Characters that are neither slashes nor dots stand in steps. -/
theorem mem_text_iff (path : Path) {c : Char} (slash : c ≠ '/') (dot : c ≠ '.') :
    c ∈ path.text ↔ ∃ component ∈ path.steps, c ∈ component.text := by
  have solid : ∀ segment, c ∈ segment → isVoid segment = false := by
    intro segment member
    have filled : segment ≠ [] := List.ne_nil_of_mem member
    have other : segment ≠ ['.'] := by
      rintro rfl
      exact dot (List.mem_singleton.mp member)
    simp [isVoid, filled, other]
  have texts : (∃ component ∈ path.steps, c ∈ component.text) ↔
      ∃ segment ∈ path.segments.filter (!isVoid ·), c ∈ segment := by
    rw [solid_segments]
    simp
  rw [← Text.exists_mem_splitOn_iff slash, texts]
  constructor
  · rintro ⟨segment, inPath, member⟩
    exact ⟨segment, List.mem_filter.mpr ⟨inPath, by simp [solid segment member]⟩, member⟩
  · rintro ⟨segment, inPath, member⟩
    exact ⟨segment, (List.mem_filter.mp inPath).1, member⟩

/-! ### The mark -/

theorem segments_ne_nil (path : Path) : path.segments ≠ [] := Text.splitOn_ne_nil '/' path.text

/-- A path from the top starts with a slash. -/
theorem exists_of_isAbsolute {path : Path} (absolute : path.isAbsolute = true) : ∃ rest, path = ⟨'/' :: rest⟩ := by
  obtain ⟨text⟩ := path
  obtain ⟨rest, rfl⟩ := List.head?_eq_some_iff.mp (of_decide_eq_true absolute)
  exact ⟨rest, rfl⟩

theorem text_ne_nil_of_isAbsolute {path : Path} (absolute : path.isAbsolute = true) : path.text ≠ [] := by
  obtain ⟨rest, rfl⟩ := exists_of_isAbsolute absolute
  exact List.cons_ne_nil '/' rest

/-- The pieces of a path from the top are an empty one and those behind the slash. -/
theorem segments_top (rest : Text) : segments ⟨'/' :: rest⟩ = [] :: segments ⟨rest⟩ := by
  rw [segments, Text.splitOn_cons, if_pos rfl, segments]

/-- The first piece of a path is empty if it starts at the top. -/
theorem head?_segments_of_isAbsolute {path : Path} (absolute : path.isAbsolute = true) :
    path.segments.head? = some [] := by
  obtain ⟨rest, rfl⟩ := exists_of_isAbsolute absolute
  rw [segments_top, List.head?_cons]

/-- Otherwise it is not, unless the path is empty. -/
theorem head?_segments_ne_nil {path : Path} (filled : path.text ≠ []) (relative : path.isAbsolute = false) :
    path.segments.head? ≠ some [] := by
  have whole := path.intercalate_segments
  intro first
  obtain ⟨rest, pieces⟩ := List.head?_eq_some_iff.mp first
  rw [pieces] at whole
  cases rest with
  | nil => exact filled (by simpa [List.intercalate] using whole.symm)
  | cons next rest =>
    rw [List.intercalate_cons_cons] at whole
    simp [isAbsolute, ← whole] at relative

theorem startsHere_of_isAbsolute {path : Path} (absolute : path.isAbsolute = true) : path.startsHere = false := by
  simp [startsHere, head?_segments_of_isAbsolute absolute]

theorem isAbsolute_of_startsHere {path : Path} (here : path.startsHere = true) : path.isAbsolute = false := by
  cases absolute : path.isAbsolute with
  | false => rfl
  | true =>
    rw [startsHere_of_isAbsolute absolute] at here
    cases here

/-- The components of a path are its mark and its steps. -/
theorem components_eq (path : Path) : path.components = path.mark ++ path.steps := by
  have top (absolute : path.isAbsolute = true) := head?_segments_of_isAbsolute absolute
  have some_segment := path.segments_ne_nil
  rw [components, mark, steps, startsHere]
  cases pieces : path.segments with
  | nil => exact absurd pieces some_segment
  | cons first rest =>
    rw [pieces, List.head?_cons, Option.some.injEq] at top
    dsimp only
    by_cases absolute : path.isAbsolute = true
    · have void : component? first = none := by rw [top absolute]; rfl
      simp [absolute, void]
    · by_cases here : first = ['.']
      · have void : component? first = none := by rw [here]; rfl
        rw [if_neg absolute, if_pos here, List.filterMap_cons_none void, if_neg absolute, List.head?_cons]
        simp [here]
      · rw [if_neg absolute, if_neg here, if_neg absolute, List.head?_cons]
        cases named : component? first <;> simp [here, named]

theorem dotless_eq (path : Path) : path.dotless = (if path.isAbsolute then [.root] else []) ++ path.steps := by
  rw [dotless, components_eq, List.filter_append, filter_ne_here_of_isStep fun component => isStep_of_mem_steps, mark]
  split
  · rfl
  · split <;> rfl

theorem dotless_of_relative {path : Path} (relative : path.isAbsolute = false) : path.dotless = path.steps := by
  simp [dotless_eq, relative]

theorem components_of_empty {path : Path} (empty : path.text = []) : path.components = [] := by
  obtain ⟨text⟩ := path
  cases empty
  rfl

theorem isAbsolute_eq_of_dotless {a b : Path} (same : a.dotless = b.dotless) : a.isAbsolute = b.isAbsolute := by
  have root_mem_iff (path : Path) : .root ∈ path.dotless ↔ path.isAbsolute = true := by
    have below : .root ∉ path.steps := fun member => nomatch isStep_of_mem_steps member
    rw [dotless_eq, List.mem_append, or_iff_left below]
    split <;> simp [*]
  rw [Bool.eq_iff_iff, ← root_mem_iff, same, root_mem_iff]

theorem steps_eq_of_dotless {a b : Path} (same : a.dotless = b.dotless) : a.steps = b.steps := by
  have side := isAbsolute_eq_of_dotless same
  rw [dotless_eq, dotless_eq, side] at same
  exact List.append_cancel_left same

theorem here_or_isStep_of_mem_components {path : Path} (relative : path.isAbsolute = false) {component : Component}
    (member : component ∈ path.components) : component = .here ∨ component.IsStep := by
  rw [components_eq, List.mem_append, mark, if_neg (by simp [relative])] at member
  refine member.imp (fun inMark => ?_) isStep_of_mem_steps
  split at inMark
  · exact List.mem_singleton.mp inMark
  · cases inMark

theorem text_ne_nil_of_startsHere {path : Path} (here : path.startsHere = true) : path.text ≠ [] := by
  rintro empty
  simp [startsHere, segments, empty] at here

theorem components_of_startsHere {path : Path} (here : path.startsHere = true) :
    path.components = .here :: path.steps := by
  simp [components_eq, mark, isAbsolute_of_startsHere here, here]

theorem components_of_not_startsHere {path : Path} (there : path.startsHere = false) :
    path.components = path.dotless := by
  simp [components_eq, dotless_eq, mark, there]

theorem here_mem_components_iff (path : Path) : .here ∈ path.components ↔ path.startsHere = true := by
  cases starts : path.startsHere with
  | true => simp [components_of_startsHere starts]
  | false =>
    rw [components_of_not_startsHere starts, dotless, List.mem_filter]
    simp

/-- Paths have the same components when they are the same but for dots and both or none of them start with one. -/
theorem components_eq_iff (a b : Path) :
    a.components = b.components ↔ a.startsHere = b.startsHere ∧ a.dotless = b.dotless := by
  constructor
  · intro same
    refine ⟨?_, by rw [dotless, dotless, same]⟩
    rw [Bool.eq_iff_iff, ← here_mem_components_iff, same, here_mem_components_iff]
  · rintro ⟨starts, same⟩
    cases here : b.startsHere with
    | true =>
      rw [here] at starts
      rw [dotless_of_relative (isAbsolute_of_startsHere starts), dotless_of_relative (isAbsolute_of_startsHere here)]
        at same
      rw [components_of_startsHere starts, components_of_startsHere here, same]
    | false =>
      rw [here] at starts
      rw [components_of_not_startsHere starts, components_of_not_startsHere here, same]

theorem isHere_iff (path : Path) : path.isHere = true ↔ path.startsHere = true ∧ path.steps = [] := by
  rw [isHere, decide_eq_true_eq]
  constructor
  · intro here
    cases starts : path.startsHere with
    | true => exact ⟨rfl, by simpa [components_of_startsHere starts] using here⟩
    | false =>
      rw [components_of_not_startsHere starts] at here
      have inside : Component.here ∈ path.dotless := by simp [here]
      simp [dotless] at inside
  · rintro ⟨starts, none⟩
    rw [components_of_startsHere starts, none]

theorem up_mem_components_iff (path : Path) : .up ∈ path.components ↔ .up ∈ path.steps := by
  rw [components_eq, List.mem_append, mark]
  split
  · simp
  · split <;> simp

/-- The pieces of a path without an empty one at its end. -/
def openSegments (path : Path) : List Text :=
  if path.segments.getLast? = some [] then path.segments.dropLast else path.segments

theorem mem_segments_of_mem_openSegments {path : Path} {segment : Text} (member : segment ∈ path.openSegments) :
    segment ∈ path.segments := by
  rw [openSegments] at member
  split at member
  · exact List.dropLast_subset _ member
  · exact member

theorem segments_eq_or (path : Path) :
    path.segments = path.openSegments ∨ path.segments = path.openSegments ++ [[]] := by
  rw [openSegments]
  split
  · next closed =>
    obtain ⟨start, ends⟩ := List.getLast?_eq_some_iff.mp closed
    exact .inr (by rw [ends, List.dropLast_concat])
  · exact .inl rfl

theorem filterMap_openSegments (path : Path) : path.openSegments.filterMap component? = path.steps := by
  have void : component? [] = none := rfl
  rcases path.segments_eq_or with own | own
  · rw [steps, ← own]
  · rw [steps, own, List.filterMap_append, List.filterMap_cons_none void, List.filterMap_nil, List.append_nil]

/-- The first piece of a path that is not empty is not one that is left out. -/
theorem head?_openSegments {path : Path} (filled : path.text ≠ []) :
    path.openSegments.head? = path.segments.head? := by
  rcases path.segments_eq_or with own | own
  · rw [own]
  · cases start : path.openSegments with
    | cons first rest => simp [own, start]
    | nil =>
      rw [start, List.nil_append] at own
      have spelled := path.intercalate_segments
      rw [own] at spelled
      exact absurd spelled.symm filled

theorem openSegments_ne_nil {path : Path} (filled : path.text ≠ []) : path.openSegments ≠ [] := by
  have first := head?_openSegments filled
  intro none
  rw [none, List.head?_nil, eq_comm, List.head?_eq_none_iff] at first
  exact path.segments_ne_nil first

/-! ### Comparing paths -/

theorem Component.key_injective : Function.Injective Component.key := by
  intro a b same
  cases a <;> cases b <;> simp [key] at same ⊢
  exact List.map_injective_iff.mpr (fun _ _ => Char.toNat_inj.mp) same

theorem key_eq_iff (a b : Path) : a.key = b.key ↔ a.components = b.components :=
  (List.map_injective_iff.mpr Component.key_injective).eq_iff

/-- Paths compare equal when they have the same components. -/
theorem order_eq_iff (a b : Path) : order a b = .eq ↔ a.components = b.components := by
  rw [order, Std.LawfulEqCmp.compare_eq_iff_eq, key_eq_iff]

instance : Std.TransCmp order := inferInstanceAs (Std.TransCmp (compareOn key))

/-! ### Paths below a base -/

theorem join_of_isAbsolute (base : Path) {path : Path} (absolute : path.isAbsolute = true) : base.join path = path :=
  if_pos absolute

theorem join_of_empty {base path : Path} (empty : base.text = []) : base.join path = path := by
  rw [join]
  split
  · rfl
  · simp [empty]

theorem text_join_ne_nil {base : Path} (filled : base.text ≠ []) (path : Path) : (base.join path).text ≠ [] := by
  rw [join]
  split
  · next absolute => exact text_ne_nil_of_isAbsolute absolute
  · split <;> simp [filled]

section
variable {base path : Path} (relative : path.isAbsolute = false) (filled : base.text ≠ [])
include relative filled

/-- The pieces of a path below a base are those of the base, but for an empty one at its end, and those of the
    path. -/
theorem segments_join : (base.join path).segments = base.openSegments ++ path.segments := by
  have closed := Text.getLast?_splitOn_eq_nil_iff '/' base.text
  rw [join, if_neg (by simp [relative]), openSegments, segments]
  split
  · next slash =>
    -- the base ends in a slash, as it is not empty
    have last : base.text.getLast? = some '/' := by simpa [filled] using slash
    obtain ⟨start, ends⟩ := List.getLast?_eq_some_iff.mp last
    have own : base.segments = Text.splitOn '/' start ++ [[]] := by
      rw [segments, ends]
      exact Text.splitOn_append '/' start []
    rw [own, if_pos List.getLast?_concat, List.dropLast_concat, ends, List.append_assoc]
    exact Text.splitOn_append '/' start path.text
  · next other =>
    rw [if_neg, Text.splitOn_append, segments, segments]
    rw [segments, closed]
    simpa using other

theorem steps_join : (base.join path).steps = base.steps ++ path.steps := by
  rw [steps, segments_join relative filled, List.filterMap_append, filterMap_openSegments]
  rfl

theorem isAbsolute_join : (base.join path).isAbsolute = base.isAbsolute := by
  obtain ⟨c, text, same⟩ := List.exists_cons_of_ne_nil filled
  rw [join, if_neg (by simp [relative])]
  split <;> simp [isAbsolute, same]

theorem startsHere_join : (base.join path).startsHere = base.startsHere := by
  rw [startsHere, startsHere, segments_join relative filled, List.head?_append_of_ne_nil _ (openSegments_ne_nil filled),
    head?_openSegments filled]

/-- A path below a base has the components of the base and then its own steps. -/
theorem components_join : (base.join path).components = base.components ++ path.steps := by
  rw [components_eq, components_eq, mark, mark, steps_join relative filled, isAbsolute_join relative filled,
    startsHere_join relative filled, List.append_assoc]

end

theorem dotless_join (base : Path) {path : Path} (relative : path.isAbsolute = false) :
    (base.join path).dotless = base.dotless ++ path.steps := by
  by_cases empty : base.text = []
  · obtain ⟨text⟩ := base
    cases empty
    rw [join_of_empty rfl, dotless_of_relative relative]
    rfl
  · rw [dotless_eq, dotless_eq, isAbsolute_join relative empty, steps_join relative empty, List.append_assoc]

theorem up_not_mem_join {base path : Path} (descending : .up ∉ base.components) (steady : .up ∉ path.components) :
    .up ∉ (base.join path).components := by
  cases absolute : path.isAbsolute with
  | true => rwa [join_of_isAbsolute base absolute]
  | false =>
    by_cases empty : base.text = []
    · rwa [join_of_empty empty]
    · rw [up_mem_components_iff] at steady
      simp [components_join absolute empty, descending, steady]

/-! ### Paths made of components -/

theorem segments_of_free {text : Text} (free : '/' ∉ text) : segments ⟨text⟩ = [text] := Text.splitOn_eq_singleton free

theorem steps_of_free {text : Text} (free : '/' ∉ text) : steps ⟨text⟩ = (component? text).toList := by
  rw [steps, segments_of_free free]
  cases named : component? text <;> simp [named]

theorem isAbsolute_of_free {text : Text} (free : '/' ∉ text) : isAbsolute ⟨text⟩ = false := by
  cases text with
  | nil => rfl
  | cons c text =>
    have other : c ≠ '/' := fun same => free (by simp [same])
    simp [isAbsolute, other]

section
variable {components : List Component} (own : ∀ component ∈ components, component = .here ∨ component.IsStep)
include own

theorem segments_ofComponents (filled : components ≠ []) :
    (ofComponents components).segments = components.map (·.text) := by
  rw [segments, ofComponents, Text.splitOn_intercalate (by simpa using filled), List.flatMap_map]
  have single : ∀ component ∈ components, Text.splitOn '/' component.text = [component.text] := by
    intro component member
    refine Text.splitOn_eq_singleton ?_
    rcases own component member with rfl | step
    · decide
    · exact step.not_mem_text
  rw [List.flatMap_congr single]
  exact List.flatMap_pure_eq_map _ _

theorem steps_ofComponents : (ofComponents components).steps = components.filter (· ≠ .here) := by
  cases components with
  | nil => rfl
  | cons first rest =>
    rw [Path.steps, segments_ofComponents own (by simp), List.filterMap_map, ← List.filterMap_eq_filter]
    refine List.filterMap_congr fun component member => ?_
    rcases own component member with rfl | step
    · rfl
    · simp [step.component?_text, Option.guard, step.ne_here]

theorem isAbsolute_ofComponents : (ofComponents components).isAbsolute = false := by
  cases absolute : (ofComponents components).isAbsolute with
  | false => rfl
  | true =>
    have first := head?_segments_of_isAbsolute absolute
    cases components with
    | nil => cases absolute
    | cons component rest =>
      rw [segments_ofComponents own (by simp), List.map_cons, List.head?_cons, Option.some.injEq] at first
      rcases own component List.mem_cons_self with rfl | step
      · cases first
      · exact absurd first step.text_ne_nil

theorem dotless_ofComponents : (ofComponents components).dotless = components.filter (· ≠ .here) := by
  rw [dotless_of_relative (isAbsolute_ofComponents own), steps_ofComponents own]

end
end PatternLint.Path
