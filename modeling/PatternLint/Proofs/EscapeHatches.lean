import PatternLint.Proofs.LineRules

/-!
# The construct that is reported

A line that contains constructs of the list is reported once: for the first of them in the order of the list, wherever
the others stand, and at the leftmost place of that one. The search for all constructs at once and the search for one of
them agree about what a text contains, so the place is always found (`Escape.hatch_exact`).
-/
namespace PatternLint.Escape

/-- A text contains a construct and none that is listed before it. -/
def Foremost (hatch : EscapeHatch) (text : Text) : Prop :=
  Contains hatch.Written text ∧ ∃ earlier later, EscapeHatch.all = earlier ++ hatch :: later ∧
    ∀ other ∈ earlier, ¬ Contains other.Written text

/-- The leftmost place of a construct. -/
def FirstPlace (hatch : EscapeHatch) (text : Text) (place : Occurrence Unit) : Prop :=
  Leftmost (fun _ => True) (fun _ => hatch.Written) text place

/-- The error about a construct at a place. -/
def complaint (line : Line) (place : Occurrence Unit) (hatch : EscapeHatch) : Diagnostic :=
  ⟨line.number, place.before.length + 1,
    "Potentially unsafe code detected (".toList ++ hatch.label ++
      "). JavaScript imports and browser APIs are not allowed.".toList,
    .error⟩

/-- What is told of a line. -/
inductive Told (line : Line) : List Diagnostic → Prop
  | confined : (∀ hatch : EscapeHatch, ¬ Contains hatch.Written line.text) → Told line []
  | escaping {hatch : EscapeHatch} {place : Occurrence Unit} : Foremost hatch line.text →
      FirstPlace hatch line.text place → Told line [complaint line place hatch]

/-- The search for all constructs at once ends with the foremost of them. -/
theorem firstHatch?_eq_some_iff (text : Text) (hatch : EscapeHatch) :
    firstHatch? text = some hatch ↔ Foremost hatch text := by
  have met (hatch : EscapeHatch) : (meetAll [] text).contains hatch = true ↔ Contains hatch.Written text := by
    rw [List.contains_iff_mem, mem_meetAll_iff, or_iff_right List.not_mem_nil, hatch.contains_begun_iff]
  simp only [firstHatch?, List.find?_eq_some_iff_append, Bool.not_eq_true', ← Bool.not_eq_true, met, Foremost]

theorem Foremost.unique {hatch other : EscapeHatch} {text : Text} (foremost : Foremost hatch text)
    (foremost' : Foremost other text) : hatch = other :=
  Option.some.inj (((firstHatch?_eq_some_iff text hatch).mpr foremost).symm.trans
    ((firstHatch?_eq_some_iff text other).mpr foremost'))

/-- A construct is found at its leftmost place: wherever it is written, it begins there. -/
theorem firstPlace_of_find? {hatch : EscapeHatch} {text : Text} {place : Occurrence Unit}
    (found : hatch.pattern.find? text = some place) : FirstPlace hatch text place := by
  obtain ⟨⟨_, part, begun, parts⟩, first⟩ := (Pattern.find?_eq_some_iff_leftmost hatch.pattern_spells text place).mp found
  refine ⟨⟨trivial, part, hatch.written_of_begun begun, parts⟩, fun other stands => ?_⟩
  obtain ⟨part, written, parts⟩ := stands.parts
  obtain ⟨start, rest, begun, rfl⟩ := hatch.exists_begun written
  exact first ⟨other.before, (), rest ++ other.after⟩ ⟨trivial, start, begun, by simp [parts]⟩

theorem told_findings (line : Line) : Told line ((findings line).map (·.diagnostic)) := by
  cases first : firstHatch? line.text with
  | none =>
    have nothing := (firstHatch?_eq_none_iff line.text).mp first
    rw [(findings_eq_nil_iff line).mpr nothing]
    exact .confined nothing
  | some hatch =>
    obtain ⟨place, found, _⟩ := exists_find?_of_firstHatch? first
    have leftmost := firstPlace_of_find? found
    rw [findings_eq_singleton first found, leftmost.1.columnAt_eq]
    exact .escaping ((firstHatch?_eq_some_iff line.text hatch).mp first) leftmost

theorem Told.unique {line : Line} {one other : List Diagnostic} (told : Told line one) (told' : Told line other) :
    one = other := by
  cases told with
  | confined none =>
    cases told' with
    | confined _ => rfl
    | escaping foremost _ => exact absurd foremost.1 (none _)
  | escaping foremost first =>
    cases told' with
    | confined none => exact absurd foremost.1 (none _)
    | escaping foremost' first' =>
      cases foremost.unique foremost'
      rw [complaint, complaint, first.length_eq first']

/-- Nothing is told of a line without a construct; otherwise there is one error, about the foremost construct and at its
    leftmost place. A construct is met in the search for all of them just when it is found alone, so the one that is
    reported is found, and its place is never made up. -/
theorem hatch_exact (line : Line) :
    (∀ diagnostics, Told line diagnostics ↔ (findings line).map (·.diagnostic) = diagnostics) ∧
    (∀ hatch, hatch ∈ meetAll [] line.text ↔ ∃ place, hatch.pattern.find? line.text = some place) ∧
    ∀ hatch, firstHatch? line.text = some hatch → ∃ place, hatch.pattern.find? line.text = some place ∧
      offset hatch line.text = Text.byteLength place.before := by
  refine ⟨fun diagnostics => ⟨(told_findings line).unique, ?_⟩, mem_meetAll_iff_find? line.text,
    fun hatch => exists_find?_of_firstHatch?⟩
  rintro rfl
  exact told_findings line

/-- What is listed first is reported, not what stands first. -/
example : findings ⟨1, "window.x; import y".toList⟩ = [⟨1, 11, .sandboxEscape .importing⟩] := by decide

end PatternLint.Escape
