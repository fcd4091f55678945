import PatternLint.Gate
import PatternLint.Proofs.RuleFindings

/-!
# The verdict on a source

A source is runnable when no line that counts does what is forbidden, all literals are complete and all brackets
balance (`Runnable`). Linting finds no error in just these sources (`ok_iff_runnable`), so the gate lets just these
through (`Gate.verdict_exact`), and runnable sources joined by line breaks are runnable (`Lint.ok_unlines`).
-/
namespace PatternLint

/-! ### Harmless findings -/

/-- Findings of which none is an error. -/
def Harmless (findings : List Finding) : Prop := ∀ finding ∈ findings, finding.cause.severity = .warning

theorem harmless_append (a b : List Finding) : Harmless (a ++ b) ↔ Harmless a ∧ Harmless b :=
  List.forall_mem_append

theorem harmless_flatMap {α : Type} (list : List α) (findings : α → List Finding) :
    Harmless (list.flatMap findings) ↔ ∀ a ∈ list, Harmless (findings a) := by
  simp only [Harmless, List.mem_flatMap]
  exact ⟨fun all a member finding found => all finding ⟨a, member, found⟩,
    fun all finding ⟨a, member, found⟩ => all a member finding found⟩

/-- What reports errors alone is harmless only when it is silent. -/
theorem harmless_of_error {findings : List Finding} (errors : ∀ finding ∈ findings, finding.cause.severity = .error) :
    Harmless findings ↔ findings = [] := by
  constructor
  · intro harmless
    refine List.eq_nil_iff_forall_not_mem.mpr fun finding member => ?_
    have := (errors finding member).symm.trans (harmless finding member)
    cases this
  · rintro rfl finding member
    cases member

theorem ok_iff_harmless (source : Text) : (Lint.check source).ok = true ↔ Harmless (Lint.findings source) := by
  have severity : ∀ severity : Severity, severity = .error ↔ ¬ severity = .warning := fun s => by cases s <;> simp
  simp [LintResult.ok, Lint.check, Harmless, Diagnostic.isError, Finding.diagnostic, severity]

/-! ### Runnable sources -/

/-- What a line must keep to if it is not skipped. -/
structure Permitted (text : Text) : Prop where
  /-- It contains no way out of the sandbox. -/
  sandboxed : ∀ hatch : EscapeHatch, ¬ Contains hatch.Written text
  /-- Its first standalone call of `s`, if there is one, names no waveform. -/
  sampled : ∀ o, Sample.FirstCall text o → ∀ wave : Waveform, sampleRoot o.captured ≠ wave.name
  /-- It calls `.play` only where it mentions the state of playback. -/
  unplayed : Contains (Opening ".play".toList) text → Contains (· = "isPlaying".toList) text

/-- What a source must keep to. -/
structure Runnable (source : Text) : Prop where
  /-- The lines that are neither blank nor a comment are permitted. -/
  permitted : ∀ text ∈ source.lines, ¬ Skipped text → Permitted text
  /-- The characters that no backslash hides are plain characters and complete literals. -/
  quoted : Quotes.Complete (Quotes.visible source)
  /-- Outside the comments as many brackets of each kind are opened as are closed. -/
  bracketed : ∃ codes, List.Forall₂ Brackets.CodeOf source.lines codes ∧
    ∀ bracket : Bracket, codes.flatten.count bracket.opener = codes.flatten.count bracket.closer

theorem bracketed_iff (source : Text) :
    (∃ codes, List.Forall₂ Brackets.CodeOf source.lines codes ∧
      ∀ bracket : Bracket, codes.flatten.count bracket.opener = codes.flatten.count bracket.closer) ↔
    ∀ bracket : Bracket,
      (Brackets.code source).count bracket.opener = (Brackets.code source).count bracket.closer := by
  simp only [Brackets.forall₂_codeOf_iff, exists_eq_left]
  rfl

theorem harmless_range (line : Line) : Harmless (Range.findings line) := fun _ member =>
  LineRule.severity_of_mem .range member

theorem harmless_lineFindings_iff (line : Line) :
    Harmless (Lint.lineFindings line) ↔ ¬ Skipped line.text → Permitted line.text := by
  rw [← isSkipped_iff, Lint.lineFindings]
  by_cases skipped : line.isSkipped = true
  · simp [skipped, Harmless]
  · have sample : Harmless (Sample.findings line) ↔ Sample.findings line = [] :=
      harmless_of_error fun _ => LineRule.severity_of_mem .sample
    have escape : Harmless (Escape.findings line) ↔ Escape.findings line = [] :=
      harmless_of_error fun _ => LineRule.severity_of_mem .escape
    have playback : Harmless (Playback.findings line) ↔ Playback.findings line = [] :=
      harmless_of_error fun _ => LineRule.severity_of_mem .playback
    rw [Sample.findings_eq_nil_iff] at sample
    rw [Escape.findings_eq_nil_iff] at escape
    rw [Playback.findings_eq_nil_iff] at playback
    rw [if_neg skipped, harmless_flatMap]
    simp only [LineRule.all, List.forall_mem_cons, List.not_mem_nil, false_imp_iff, implies_true, and_true,
      LineRule.findings, sample, escape, playback, harmless_range, true_and]
    constructor
    · rintro ⟨sampled, sandboxed, unplayed⟩ _
      exact ⟨sandboxed, sampled, unplayed⟩
    · intro permitted
      obtain ⟨sandboxed, sampled, unplayed⟩ := permitted skipped
      exact ⟨sampled, sandboxed, unplayed⟩

theorem harmless_linePhase_iff (source : Text) :
    Harmless (Lint.linePhase source) ↔ ∀ text ∈ source.lines, ¬ Skipped text → Permitted text := by
  rw [Lint.linePhase, harmless_flatMap, ← forall_ofSource_iff source fun text => ¬ Skipped text → Permitted text]
  exact forall₂_congr fun line _ => harmless_lineFindings_iff line

theorem harmless_scales (source : Text) : Harmless (Scales.findings source) := fun _ member =>
  SourceRule.severity_of_mem .scales member

theorem harmless_sourcePhase_iff (source : Text) :
    Harmless (Lint.sourcePhase source) ↔ Quotes.findings source = [] ∧ Brackets.findings source = [] := by
  have quotes : Harmless (Quotes.findings source) ↔ Quotes.findings source = [] :=
    harmless_of_error fun _ => SourceRule.severity_of_mem .quotes
  have brackets : Harmless (Brackets.findings source) ↔ Brackets.findings source = [] :=
    harmless_of_error fun _ => SourceRule.severity_of_mem .brackets
  rw [Lint.sourcePhase, harmless_flatMap]
  simp only [SourceRule.all, List.forall_mem_cons, List.not_mem_nil, false_imp_iff, implies_true, and_true,
    SourceRule.findings, quotes, brackets, harmless_scales]

/-- No error is found just in the runnable sources. -/
theorem ok_iff_runnable (source : Text) : (Lint.check source).ok = true ↔ Runnable source := by
  rw [ok_iff_harmless, Lint.findings, harmless_append, harmless_linePhase_iff, harmless_sourcePhase_iff,
    Quotes.findings_eq_nil_iff, Brackets.findings_eq_nil_iff, ← bracketed_iff]
  constructor
  · rintro ⟨permitted, quoted, bracketed⟩
    exact ⟨permitted, quoted, bracketed⟩
  · rintro ⟨permitted, quoted, bracketed⟩
    exact ⟨permitted, quoted, bracketed⟩

/-! ### The gate -/

/-- Amounts out of range and different scales. -/
inductive Cause.IsAdvice : Cause → Prop
  | below {effect : Effect} {amount : Binary64} : IsAdvice (.belowRange effect amount)
  | above {effect : Effect} {amount : Binary64} : IsAdvice (.aboveRange effect amount)
  | scales {scales : List Text} : IsAdvice (.differentScales scales)

theorem Cause.severity_eq_warning_iff (cause : Cause) : cause.severity = .warning ↔ cause.IsAdvice := by
  constructor
  · intro warning
    cases cause with
    | belowRange effect amount => exact .below
    | aboveRange effect amount => exact .above
    | differentScales scales => exact .scales
    | _ => cases warning
  · rintro (_ | _ | _) <;> rfl

namespace Gate

theorem review_of_ok {source : Text} (ok : (Lint.check source).ok = true) (purpose : Purpose) :
    review purpose source = .ok (Lint.check source) := if_pos ok

theorem review_of_not_ok {source : Text} (bad : ¬ (Lint.check source).ok = true) (purpose : Purpose) :
    review purpose source = .error ⟨purpose, Lint.check source⟩ := if_neg bad

theorem allowed_iff_ok (purpose : Purpose) (source : Text) :
    (∃ result, review purpose source = .ok result) ↔ (Lint.check source).ok = true := by
  by_cases ok : (Lint.check source).ok = true
  · simp [review_of_ok ok purpose, ok]
  · simp [review_of_not_ok ok purpose, ok]

/-- For running as for publishing the gate lets just the runnable sources through, with the lint result of the
    source, and refuses all others with that result. Advice on amounts and scales plays no part: a source passes
    just when nothing but advice is found. -/
theorem verdict_exact (source : Text) :
    ((∃ result, review .run source = .ok result) ↔ ∃ result, review .publish source = .ok result) ∧
    (∀ purpose, (∃ result, review purpose source = .ok result) ↔ Runnable source) ∧
    (∀ purpose, (∃ result, review purpose source = .ok result) ↔
      ∀ finding ∈ Lint.findings source, finding.cause.IsAdvice) ∧
    (∀ purpose result, review purpose source = .ok result → result = Lint.check source) ∧
    ∀ purpose refusal, review purpose source = .error refusal → refusal = ⟨purpose, Lint.check source⟩ := by
  refine ⟨?_, fun purpose => ?_, fun purpose => ?_, fun purpose result allowed => ?_, fun purpose refusal refused => ?_⟩
  · rw [allowed_iff_ok, allowed_iff_ok]
  · rw [allowed_iff_ok, ok_iff_runnable]
  · rw [allowed_iff_ok, ok_iff_harmless]
    exact forall₂_congr fun finding _ => finding.cause.severity_eq_warning_iff
  · have ok := (allowed_iff_ok purpose source).mp ⟨result, allowed⟩
    rw [review_of_ok ok purpose] at allowed
    cases allowed
    rfl
  · by_cases ok : (Lint.check source).ok = true
    · rw [review_of_ok ok purpose] at refused
      cases refused
    · rw [review_of_not_ok ok purpose] at refused
      cases refused
      rfl

end Gate

/-! ### Joined sources -/

theorem Runnable.append_break {a b : Text} (first : Runnable a) (second : Runnable b) :
    Runnable (a ++ '\n' :: b) where
  permitted text member := by
    rw [Text.lines_append_break] at member
    exact (List.mem_append.mp member).elim (first.permitted text) (second.permitted text)
  quoted := Quotes.complete_append_break first.quoted second.quoted
  bracketed := by
    rw [bracketed_iff, Brackets.code_append_break]
    intro bracket
    rw [List.count_append, List.count_append, (bracketed_iff a).mp first.bracketed bracket,
      (bracketed_iff b).mp second.bracketed bracket]

theorem runnable_unlines {sources : List Text} (some_source : sources ≠ [])
    (runnable : ∀ source ∈ sources, Runnable source) : Runnable (Text.unlines sources) := by
  induction sources with
  | nil => exact absurd rfl some_source
  | cons source sources ih =>
    cases sources with
    | nil => simpa using runnable
    | cons next sources =>
      rw [Text.unlines_cons_cons]
      exact (runnable source (by simp)).append_break
        (ih (by simp) fun source member => runnable source (List.mem_cons_of_mem _ member))

namespace Lint

/-- Sources without errors, joined by line breaks, have no errors. -/
theorem ok_unlines (sources : List Text) (some_source : sources ≠ [])
    (ok : ∀ source ∈ sources, (check source).ok = true) : (check (Text.unlines sources)).ok = true :=
  (ok_iff_runnable _).mpr
    (runnable_unlines some_source fun source member => (ok_iff_runnable source).mp (ok source member))

/-- A source that ends in a backslash, one with a comment and one with a warning. -/
theorem ok_unlines_backslash_comment :
    (check (Text.unlines ["s('bd') \\".toList, "// (".toList, "x.lpf(9000)".toList])).ok = true :=
  ok_unlines _ (by decide) (by decide +kernel)

end Lint
end PatternLint
