import PatternLint.Proofs.Verdict

/-!
# Sources of comments

A source whose lines are all blank or comments has nothing for the line rules, and no bracket in it counts. But
quotes are scanned in comments as well: a quote that a comment leaves open is an error, and the only one there
can be (`errors_of_comments`).
-/
namespace PatternLint

theorem Text.isBlank_of_trimLeft_eq_nil {text : Text} (none_left : text.trimLeft = []) {c : Char} (member : c ∈ text) :
    isBlank c = true :=
  List.dropWhile_eq_nil_iff.mp none_left c member

namespace Brackets

/-- The code of a line that is skipped is blank. -/
theorem isBlank_of_mem_beforeComment {text : Text} (skipped : Skipped text) {c : Char}
    (member : c ∈ beforeComment text) : isBlank c = true := by
  have code := codeOf_beforeComment text
  rcases skipped with blank | comment
  · exact Text.isBlank_of_trimLeft_eq_nil ((Text.trim_eq_nil_iff text).mp blank) (code.starts.subset member)
  · -- the line is a gap and a comment mark, and its code ends before that mark
    obtain ⟨rest, trimmed⟩ := (Text.prefix_trim_iff ['/'] text (by decide)).mp comment
    obtain ⟨gap, blank, rfl⟩ := (Text.trimLeft_eq_cons_iff (by decide)).mp trimmed.symm
    have shorter := code.first gap ⟨rest, by simp [commentMark]⟩
    have inGap := List.prefix_of_prefix_length_le code.starts (List.prefix_append gap _) shorter
    exact blank c (inGap.subset member)

theorem isBlank_brackets (bracket : Bracket) : isBlank bracket.opener = false ∧ isBlank bracket.closer = false := by
  cases bracket <;> decide

theorem findings_of_comments {source : Text} (comments : ∀ text ∈ source.lines, Skipped text) :
    findings source = [] := by
  have absent : ∀ c, isBlank c = false → (code source).count c = 0 := by
    intro c solid
    refine List.count_eq_zero.mpr fun member => ?_
    obtain ⟨part, inCode, member⟩ := List.mem_flatten.mp member
    obtain ⟨text, inSource, rfl⟩ := List.mem_map.mp inCode
    rw [isBlank_of_mem_beforeComment (comments text inSource) member] at solid
    cases solid
  refine (findings_eq_nil_iff source).mpr fun bracket => ?_
  rw [absent _ (isBlank_brackets bracket).1, absent _ (isBlank_brackets bracket).2]

end Brackets

namespace Lint

theorem linePhase_of_comments {source : Text} (comments : ∀ line ∈ Line.ofSource source, line.isSkipped = true) :
    linePhase source = [] :=
  List.flatMap_eq_nil_iff.mpr fun line member => if_pos (comments line member)

theorem errors_eq_filter (source : Text) :
    (check source).errors = ((findings source).filter (·.cause.severity = .error)).map (·.diagnostic) := by
  rw [LintResult.errors, check, List.filter_map]
  rfl

theorem filter_error_of_warning {findings : List Finding} (harmless : Harmless findings) :
    findings.filter (·.cause.severity = .error) = [] :=
  List.filter_eq_nil_iff.mpr fun finding member => by simp [harmless finding member]

/-- A source that is blank but for comments has no error but the quote that its comments leave open, and it is
    let through just when they leave none open. -/
theorem errors_of_comments (source : Text) (comments : ∀ line ∈ Line.ofSource source, line.isSkipped = true) :
    (check source).errors = (Quotes.findings source).map (·.diagnostic) ∧
    ((check source).errors = [] ↔ Quotes.Complete (Quotes.visible source)) ∧
    ∀ purpose, (∃ result, Gate.review purpose source = .ok result) ↔ Quotes.Complete (Quotes.visible source) := by
  have skipped : ∀ text ∈ source.lines, Skipped text :=
    (forall_ofSource_iff source Skipped).mp fun line member => (isSkipped_iff line).mp (comments line member)
  have brackets := Brackets.findings_of_comments skipped
  have quotes : (Quotes.findings source).filter (·.cause.severity = .error) = Quotes.findings source :=
    List.filter_eq_self.mpr fun finding member =>
      decide_eq_true (SourceRule.severity_of_mem .quotes member)
  have errors : (check source).errors = (Quotes.findings source).map (·.diagnostic) := by
    rw [errors_eq_filter, findings, linePhase_of_comments comments, sourcePhase]
    simp [SourceRule.all, SourceRule.findings, brackets, quotes, filter_error_of_warning (harmless_scales source)]
  refine ⟨errors, ?_, fun purpose => ?_⟩
  · rw [errors, List.map_eq_nil_iff, Quotes.findings_eq_nil_iff]
  · rw [Gate.allowed_iff_ok, ok_iff_harmless, findings, harmless_append, linePhase_of_comments comments,
      harmless_sourcePhase_iff, Quotes.findings_eq_nil_iff]
    simp [brackets, Harmless]

/-- Two comments with complete literals and a bracket. -/
theorem errors_of_comments_quoted :
    (∀ line ∈ Line.ofSource "// s('saw')\n  // \"(\"".toList, line.isSkipped = true) ∧
      (check "// s('saw')\n  // \"(\"".toList).errors =
        (Quotes.findings "// s('saw')\n  // \"(\"".toList).map (·.diagnostic) :=
  ⟨by decide +kernel, (errors_of_comments _ (by decide +kernel)).1⟩

/-- An apostrophe in a comment keeps a source from running. -/
theorem errors_of_apostrophe :
    (∀ line ∈ Line.ofSource "// don't".toList, line.isSkipped = true) ∧
    (check "// don't".toList).errors =
      [⟨1, 7, "Unclosed single quote (') starting on line 1".toList, .error⟩] ∧
    ¬ ∃ result, Gate.review .run "// don't".toList = .ok result := by
  refine ⟨by decide +kernel, by decide +kernel, ?_⟩
  rw [Gate.allowed_iff_ok]
  decide +kernel

end Lint
end PatternLint
