import PatternLint.Proofs.CommandLines
import PatternLint.Proofs.Targets
import PatternLint.Proofs.Verdict
import PatternLint.Session

/-!
# The exit code of a command to lint

A report holds the entries of its targets and of the standard input if this is asked for (`mem_report_iff`), and it
fails a run unless all entries are fine (`isFailed_eq_false_iff`). So the exit code tells three cases apart: there is
no report, there is one that passes, there is one that does not (`exitCode_exact`).
-/
namespace PatternLint

/-! ### Results that pass -/

/-- Whether a result holds no error, and no warning either if warnings count. -/
def LintResult.IsFine (denyWarnings : Bool) (result : LintResult) : Prop :=
  result.ok = true ∧ (denyWarnings = true → result.warnings = [])

theorem LintResult.ok_iff_errors_eq_nil (result : LintResult) : result.ok = true ↔ result.errors = [] := by
  rw [ok, errors, List.filter_eq_nil_iff, Bool.not_eq_true', List.any_eq_false]

theorem Report.countP_eq_zero_iff (report : Report) (counts : Diagnostic → Bool) :
    report.diagnostics.countP counts = 0 ↔ ∀ entry ∈ report.files, entry.result.diagnostics.filter counts = [] := by
  simp only [diagnostics, List.countP_eq_zero, List.mem_flatMap, List.filter_eq_nil_iff]
  constructor
  · intro uncounted entry listed diagnostic member
    exact uncounted diagnostic ⟨entry, listed, member⟩
  · rintro uncounted diagnostic ⟨entry, listed, member⟩
    exact uncounted entry listed diagnostic member

theorem FileReport.not_ok_of_unreadable (name : Text) (error : FileError) :
    (FileReport.unreadable name error).result.ok = false := rfl

namespace Session

theorem isFailed_eq_false_iff (denyWarnings : Bool) (report : Report) :
    isFailed denyWarnings report.summary = false ↔ ∀ entry ∈ report.files, entry.result.IsFine denyWarnings := by
  have apart : isFailed denyWarnings report.summary = false ↔
      report.summary.errors = 0 ∧ (denyWarnings = true → report.summary.warnings = 0) := by
    cases denyWarnings <;> simp [isFailed]
  rw [apart, Report.summary, Report.countP_eq_zero_iff, Report.countP_eq_zero_iff]
  constructor
  · rintro ⟨ok, unwarned⟩ entry member
    exact ⟨entry.result.ok_iff_errors_eq_nil.mpr (ok entry member), fun deny => unwarned deny entry member⟩
  · intro fine
    exact ⟨fun entry member => entry.result.ok_iff_errors_eq_nil.mp (fine entry member).1,
      fun deny entry member => (fine entry member).2 deny⟩

/-! ### What a command lints -/

/-- Where the targets are looked for: below the root if there are no paths. -/
def baseOf (config : Config.Effective) (paths : List Text) : Path := if paths.isEmpty then config.root else ⟨['.']⟩

/-- What names the targets: the configured patterns if there are no paths. -/
def patternsOf (config : Config.Effective) (paths : List Text) : List Text :=
  if paths.isEmpty then config.patterns else paths.filter (· ≠ stdinName)

section
variable {session : Session} {config : Config.Effective} {paths : List Text}

theorem report_of_bad {bad : BadPattern}
    (refused : Targets.collect session.files (baseOf config paths) (patternsOf config paths) = .error bad) :
    session.report config paths = .error (.pattern bad) := by
  rw [report]
  split
  · next empty =>
    rw [baseOf, patternsOf, if_pos empty, if_pos empty] at refused
    rw [reportBelow, refused]
  · next some_path =>
    rw [baseOf, patternsOf, if_neg some_path, if_neg some_path] at refused
    rw [reportBelow, refused]

theorem report_of_collected {targets : List Path}
    (collected : Targets.collect session.files (baseOf config paths) (patternsOf config paths) = .ok targets) :
    session.report config paths =
      if stdinName ∈ paths then session.addStdin (Targets.lint session.files (baseOf config paths) targets)
      else .ok (Targets.lint session.files (baseOf config paths) targets) := by
  rw [report]
  split
  · next empty =>
    have unpiped : stdinName ∉ paths := by simp [List.isEmpty_iff.mp empty]
    rw [baseOf, patternsOf, if_pos empty, if_pos empty] at collected
    rw [if_neg unpiped, reportBelow, collected, baseOf, if_pos empty]
  · next some_path =>
    rw [baseOf, patternsOf, if_neg some_path, if_neg some_path] at collected
    simp only [reportBelow, collected, baseOf, if_neg some_path, List.contains_iff_mem]

theorem addStdin_eq_ok_iff {report extended : Report} : session.addStdin report = .ok extended ↔
    ∃ source, Text.decode? session.stdin = some source ∧
      extended = ⟨report.files ++ [.ofSource stdinName source]⟩ := by
  rw [addStdin, readStdin]
  cases Text.decode? session.stdin <;> simp [eq_comm (a := extended)]

theorem addStdin_of_undecoded (undecoded : Text.decode? session.stdin = none) (report : Report) :
    session.addStdin report = .error (.stdin ⟨⟨"<stdin>".toList⟩, .notText⟩) := by
  rw [addStdin, readStdin, undecoded]

/-- A text that a command lints: that of a target, or the standard input if this is asked for. -/
inductive Lints (session : Session) (paths : List Text) (targets : List Path) (source : Text) : Prop
  | target {target : Path} : target ∈ targets → session.files.read target = .ok source →
      Lints session paths targets source
  | stdin : stdinName ∈ paths → Text.decode? session.stdin = some source → Lints session paths targets source

/-- The entries of a report are those of the targets, and that of the standard input if this is asked for. -/
theorem mem_report_iff {targets : List Path} {report : Report}
    (collected : Targets.collect session.files (baseOf config paths) (patternsOf config paths) = .ok targets)
    (reported : session.report config paths = .ok report) (entry : FileReport) :
    entry ∈ report.files ↔ (∃ target ∈ targets, entry = Targets.entry session.files (baseOf config paths) target) ∨
      ∃ source, stdinName ∈ paths ∧ Text.decode? session.stdin = some source ∧ entry = .ofSource stdinName source := by
  have own : entry ∈ (Targets.lint session.files (baseOf config paths) targets).files ↔
      ∃ target ∈ targets, entry = Targets.entry session.files (baseOf config paths) target := by
    simp only [Targets.lint, List.mem_mergeSort, List.mem_map, eq_comm]
  rw [report_of_collected collected] at reported
  split at reported
  · next piped =>
    obtain ⟨source, decoded, rfl⟩ := addStdin_eq_ok_iff.mp reported
    rw [List.mem_append, own, List.mem_singleton]
    simp [piped, decoded]
  · next unpiped =>
    cases reported
    rw [own]
    simp [unpiped]

end

/-! ### Commands that fail -/

/-- What keeps a command from a report: its configuration, its patterns, or the standard input if this is asked for. -/
inductive Fails (session : Session) (request : LintRequest) : Prop
  | config {failure : Config.Failure} : Config.resolve session.files (overrides request) = .error failure →
      Fails session request
  | pattern {config : Config.Effective} {bad : BadPattern} :
      Config.resolve session.files (overrides request) = .ok config →
      Targets.collect session.files (baseOf config request.paths) (patternsOf config request.paths) = .error bad →
      Fails session request
  | stdin : stdinName ∈ request.paths → Text.decode? session.stdin = none → Fails session request

/-- A command either fails, and then with a failure, or has a configuration, targets and a report. -/
theorem fails_or_reports (session : Session) (request : LintRequest) :
    (Fails session request ∧ ∃ failure, session.lint request = .error failure) ∨
    (¬ Fails session request ∧ ∃ config targets report,
      Config.resolve session.files (overrides request) = .ok config ∧
      Targets.collect session.files (baseOf config request.paths) (patternsOf config request.paths) = .ok targets ∧
      session.report config request.paths = .ok report) := by
  cases resolved : Config.resolve session.files (overrides request) with
  | error failure => exact .inl ⟨.config resolved, .config failure, by rw [lint, resolved]⟩
  | ok config =>
    cases collected : Targets.collect session.files (baseOf config request.paths) (patternsOf config request.paths) with
    | error bad =>
      refine .inl ⟨.pattern resolved collected, .pattern bad, ?_⟩
      rw [lint, resolved]
      simp only [report_of_bad collected]
    | ok targets =>
      have reported := report_of_collected collected
      by_cases undecoded : stdinName ∈ request.paths ∧ Text.decode? session.stdin = none
      · refine .inl ⟨.stdin undecoded.1 undecoded.2, .stdin ⟨⟨"<stdin>".toList⟩, .notText⟩, ?_⟩
        rw [lint, resolved]
        simp only [reported, if_pos undecoded.1, addStdin_of_undecoded undecoded.2]
      · refine .inr ⟨fun fails => ?_, config, targets, ?_⟩
        · cases fails with
          | config unresolved => cases resolved.symm.trans unresolved
          | pattern same refused =>
            cases resolved.symm.trans same
            cases collected.symm.trans refused
          | stdin piped none => exact undecoded ⟨piped, none⟩
        · rw [reported]
          split
          · next piped =>
            obtain ⟨source, decoded⟩ := Option.ne_none_iff_exists'.mp fun none => undecoded ⟨piped, none⟩
            exact ⟨_, rfl, collected, addStdin_eq_ok_iff.mpr ⟨source, decoded, rfl⟩⟩
          · exact ⟨_, rfl, collected, rfl⟩

/-! ### Commands that pass -/

/-- Whether nothing speaks against what a command lints: all targets are texts, the gate lets all texts through, and
    if warnings count there is none. -/
structure Passes (session : Session) (config : Config.Effective) (paths : List Text) (targets : List Path) : Prop where
  readable : ∀ target ∈ targets, ∃ source, session.files.read target = .ok source
  allowed : ∀ source, Lints session paths targets source → ∃ result, Gate.review .run source = .ok result
  unwarned : config.denyWarnings = true → ∀ source, Lints session paths targets source →
    (Lint.check source).warnings = []

section
variable {session : Session} {config : Config.Effective} {paths : List Text} {targets : List Path} {report : Report}

theorem forall_isFine_iff_passes
    (collected : Targets.collect session.files (baseOf config paths) (patternsOf config paths) = .ok targets)
    (reported : session.report config paths = .ok report) :
    (∀ entry ∈ report.files, entry.result.IsFine config.denyWarnings) ↔ Passes session config paths targets := by
  simp only [mem_report_iff collected reported]
  constructor
  · intro fine
    have fineText (source : Text) (lints : Lints session paths targets source) :
        (Lint.check source).IsFine config.denyWarnings := by
      cases lints with
      | @target target member read =>
        have own := fine _ (.inl ⟨target, member, rfl⟩)
        rwa [Targets.entry, read] at own
      | stdin piped decoded => exact fine _ (.inr ⟨source, piped, decoded, rfl⟩)
    refine ⟨fun target member => ?_, fun source lints => (Gate.allowed_iff_ok _ _).mpr (fineText source lints).1,
      fun deny source lints => (fineText source lints).2 deny⟩
    have own := fine _ (.inl ⟨target, member, rfl⟩)
    cases read : session.files.read target with
    | error error =>
      rw [Targets.entry, read] at own
      cases own.1.symm.trans (FileReport.not_ok_of_unreadable _ error)
    | ok source => exact ⟨source, rfl⟩
  · intro passes entry member
    have fineText (source : Text) (lints : Lints session paths targets source) :
        (Lint.check source).IsFine config.denyWarnings :=
      ⟨(Gate.allowed_iff_ok _ _).mp (passes.allowed source lints), fun deny => passes.unwarned deny source lints⟩
    rcases member with ⟨target, member, rfl⟩ | ⟨source, piped, decoded, rfl⟩
    · obtain ⟨source, read⟩ := passes.readable target member
      rw [Targets.entry, read]
      exact fineText source (.target member read)
    · exact fineText source (.stdin piped decoded)

end

/-! ### The exit code -/

/-- A command to lint ends with two and writes nothing if it fails. Otherwise it ends with zero if all that it lints
    passes, and with one if not. -/
theorem exitCode_exact (session : Session) {arguments : List Text} {command : Command}
    (accepted : Command.ofArguments ("lint".toList :: arguments) = .ok command) :
    ∃ request, command = .lint request ∧
      (Fails session request → (session.outcome command).exitCode = 2 ∧ (session.outcome command).stdout = []) ∧
      (¬ Fails session request → ∃ config targets,
        Config.resolve session.files (overrides request) = .ok config ∧
        Targets.collect session.files (baseOf config request.paths) (patternsOf config request.paths) = .ok targets ∧
        (Passes session config request.paths targets → (session.outcome command).exitCode = 0) ∧
        (¬ Passes session config request.paths targets → (session.outcome command).exitCode = 1)) := by
  rw [Command.ofArguments_lint, Command.ofForm_lint_eq_ok_iff] at accepted
  obtain ⟨reading, -, rfl⟩ := accepted
  refine ⟨reading.request, rfl, ?_⟩
  rcases fails_or_reports session reading.request with
    ⟨fails, failure, failed⟩ | ⟨works, config, targets, report, resolved, collected, reported⟩
  · refine ⟨fun _ => ?_, fun works => absurd fails works⟩
    rw [outcome, run, failed]
    exact ⟨rfl, rfl⟩
  · refine ⟨fun fails => absurd fails works, fun _ => ⟨config, targets, resolved, collected, ?_⟩⟩
    rw [← forall_isFine_iff_passes collected reported, ← isFailed_eq_false_iff, Bool.not_eq_false]
    simp only [outcome, run, lint, resolved, reported]
    exact ⟨fun fine => by rw [fine]; rfl, fun failed => by rw [failed]; rfl⟩

/-- A lone byte that starts no character on the standard input ends a command with two. -/
theorem exitCode_exact_stdin :
    Command.ofArguments ["lint".toList, ['-']] = .ok (.lint { paths := [['-']] }) ∧
    (outcome ⟨.ofLocations [], ⟨#[255]⟩, false⟩ (.lint { paths := [['-']] })).exitCode = 2 ∧
    (outcome ⟨.ofLocations [], ⟨#[255]⟩, false⟩ (.lint { paths := [['-']] })).stdout = [] := by
  have accepted : Command.ofArguments ["lint".toList, ['-']] = .ok (.lint { paths := [['-']] }) := by decide
  refine ⟨accepted, ?_⟩
  obtain ⟨request, same, fails, -⟩ := exitCode_exact ⟨.ofLocations [], ⟨#[255]⟩, false⟩ accepted
  cases same
  exact fails (.stdin (by decide) (by cbv))

end Session
end PatternLint
