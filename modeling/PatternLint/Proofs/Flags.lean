import PatternLint.Proofs.CommandLines
import PatternLint.Proofs.Targets
import PatternLint.Session

/-!
# Flags and findings

Neither the switch nor the form of output plays a part in what is reported: they only change the configuration that is
written into (`Config.resolve_deny`, `Config.resolve_output`). So all that a switch can do to a run is to end it with
one instead of zero where there are warnings, and another form of output does nothing to its exit code (`flags_exact`).
-/
namespace PatternLint

namespace Config

variable (files : FileSystem) (overrides : Overrides)

theorem resolve_deny : resolve files { overrides with denyWarnings := some true } =
    (resolve files overrides).map fun config => { config with denyWarnings := true } := by
  have root : Overrides.root { overrides with denyWarnings := some true } files = overrides.root files := rfl
  rw [resolve, resolve, root]
  cases load files (overrides.root files) with
  | error failure => rfl
  | ok settings =>
    simp only [merge]
    cases OutputForm.ofName? ((overrides.output <|> (settings.getD {}).output).getD OutputForm.human.name) with
    | none => rfl
    | some form => rfl

theorem resolve_output {asked : OutputForm} (own : overrides.output = some asked.name) (form : OutputForm) :
    resolve files { overrides with output := some form.name } =
      (resolve files overrides).map fun config => { config with output := form } := by
  have root : Overrides.root { overrides with output := some form.name } files = overrides.root files := rfl
  rw [resolve, resolve, root]
  cases load files (overrides.root files) with
  | error failure => rfl
  | ok settings =>
    have read (form : OutputForm) (other : Option Text) :
        OutputForm.ofName? ((some form.name <|> other).getD OutputForm.human.name) = some form :=
      form.ofName?_name
    simp only [merge, own, read]
    rfl

end Config

namespace Session

variable {session : Session} {request : LintRequest}

/-- Whether a command has a report, by a configuration. -/
def Reports (session : Session) (request : LintRequest) (config : Config.Effective) (report : Report) : Prop :=
  Config.resolve session.files (overrides request) = .ok config ∧ session.report config request.paths = .ok report

theorem Reports.unique {config other : Config.Effective} {report another : Report}
    (first : Reports session request config report) (second : Reports session request other another) :
    other = config ∧ another = report := by
  cases first.1.symm.trans second.1
  cases first.2.symm.trans second.2
  exact ⟨rfl, rfl⟩

/-- Whether there are warnings only, and they do not count. -/
def HasOnlyWarnings (denyWarnings : Bool) (summary : Summary) : Prop :=
  summary.errors = 0 ∧ 0 < summary.warnings ∧ denyWarnings = false

/-- Whether a command has a report with warnings and no error, by a configuration in which warnings do not count. -/
def OnlyWarned (session : Session) (request : LintRequest) : Prop :=
  ∃ config report, Reports session request config report ∧ HasOnlyWarnings config.denyWarnings report.summary

/-- The outcome of a command from its configuration and report. -/
def written (session : Session) (config : Config.Effective) (report : Report) : Outcome where
  exitCode := if isFailed config.denyWarnings report.summary then 1 else 0
  stdout := config.output.report session.color report ++ ['\n']

theorem lint_of_unresolved {failure : Config.Failure}
    (unresolved : Config.resolve session.files (overrides request) = .error failure) :
    session.lint request = .error (.config failure) := by
  rw [lint, unresolved]

theorem lint_of_resolved {config : Config.Effective}
    (resolved : Config.resolve session.files (overrides request) = .ok config) :
    session.lint request = (session.report config request.paths).map (session.written config) := by
  rw [lint, resolved]
  dsimp only
  cases session.report config request.paths with
  | error failure => rfl
  | ok report => rfl

/-- A command whose configuration differs in something that plays no part in what is reported has the same report, and
    fails with the same failure if there is none. -/
theorem outcome_or_written {other : LintRequest} {change : Config.Effective → Config.Effective}
    (resolves : Config.resolve session.files (overrides other) =
      (Config.resolve session.files (overrides request)).map change)
    (reports : ∀ config, session.report (change config) other.paths = session.report config request.paths) :
    (session.outcome (.lint other) = session.outcome (.lint request) ∧
      ∀ config report, ¬ Reports session request config report) ∨
    ∃ config report, Reports session request config report ∧
      session.outcome (.lint request) = session.written config report ∧
      session.outcome (.lint other) = session.written (change config) report := by
  simp only [outcome, run]
  cases resolved : Config.resolve session.files (overrides request) with
  | error failure =>
    rw [resolved] at resolves
    rw [lint_of_unresolved resolved, lint_of_unresolved resolves]
    refine .inl ⟨rfl, fun config report own => ?_⟩
    cases resolved.symm.trans own.1
  | ok config =>
    rw [resolved] at resolves
    rw [lint_of_resolved resolved, lint_of_resolved resolves, reports]
    cases reported : session.report config request.paths with
    | error failure =>
      refine .inl ⟨rfl, fun other report own => ?_⟩
      cases resolved.symm.trans own.1
      cases reported.symm.trans own.2
    | ok report => exact .inr ⟨config, report, ⟨resolved, reported⟩, rfl, rfl⟩

theorem resolve_strict (files : FileSystem) (request : LintRequest) :
    Config.resolve files (overrides { request with denyWarnings := true }) =
      (Config.resolve files (overrides request)).map fun config => { config with denyWarnings := true } :=
  Config.resolve_deny files (overrides request)

theorem resolve_reformed (files : FileSystem) {asked : OutputForm} (own : request.output = some asked)
    (form : OutputForm) : Config.resolve files (overrides { request with output := some form }) =
      (Config.resolve files (overrides request)).map fun config => { config with output := form } :=
  Config.resolve_output files (overrides request) (congrArg (Option.map OutputForm.name) own) form

theorem isFailed_of_hasOnlyWarnings {denyWarnings : Bool} {summary : Summary}
    (only : HasOnlyWarnings denyWarnings summary) :
    isFailed denyWarnings summary = false ∧ isFailed true summary = true := by
  obtain ⟨correct, warned, rfl⟩ := only
  simp [isFailed, correct, warned]

theorem isFailed_strict {denyWarnings : Bool} {summary : Summary} (other : ¬ HasOnlyWarnings denyWarnings summary) :
    isFailed true summary = isFailed denyWarnings summary := by
  cases denyWarnings with
  | true => rfl
  | false =>
    by_cases correct : summary.errors = 0
    · have unwarned : ¬ 0 < summary.warnings := fun warned => other ⟨correct, warned, rfl⟩
      simp [isFailed, unwarned]
    · simp [isFailed, Nat.pos_of_ne_zero correct]

/-- The switch changes the outcome of a command only where warnings are all that is found and do not count. -/
theorem outcome_strict (session : Session) (request : LintRequest) :
    (session.outcome (.lint { request with denyWarnings := true })).stdout = (session.outcome (.lint request)).stdout ∧
    (session.outcome (.lint { request with denyWarnings := true })).stderr = (session.outcome (.lint request)).stderr ∧
    (OnlyWarned session request → (session.outcome (.lint request)).exitCode = 0 ∧
      (session.outcome (.lint { request with denyWarnings := true })).exitCode = 1) ∧
    (¬ OnlyWarned session request → (session.outcome (.lint { request with denyWarnings := true })).exitCode =
      (session.outcome (.lint request)).exitCode) := by
  have same (config : Config.Effective) : session.report { config with denyWarnings := true } request.paths =
    session.report config request.paths := rfl
  rcases outcome_or_written (resolve_strict session.files request) same with
    ⟨alike, none⟩ | ⟨config, report, reports, own, strict⟩
  · rw [alike]
    refine ⟨rfl, rfl, ?_, fun _ => rfl⟩
    rintro ⟨config, report, reports, -⟩
    exact absurd reports (none config report)
  · have onlyWarned : OnlyWarned session request ↔ HasOnlyWarnings config.denyWarnings report.summary := by
      constructor
      · rintro ⟨_, _, also, only⟩
        obtain ⟨rfl, rfl⟩ := reports.unique also
        exact only
      · exact fun only => ⟨config, report, reports, only⟩
    rw [own, strict, onlyWarned]
    refine ⟨rfl, rfl, fun only => ?_, fun other => ?_⟩
    · obtain ⟨passed, failed⟩ := isFailed_of_hasOnlyWarnings only
      exact ⟨if_neg (by rw [passed]; exact nofun), if_pos failed⟩
    · simp only [written, isFailed_strict other]

/-- The form of output does not change the exit code. -/
theorem exitCode_reformed (session : Session) {request : LintRequest} {asked : OutputForm}
    (own : request.output = some asked) (form : OutputForm) :
    (session.outcome (.lint { request with output := some form })).exitCode =
      (session.outcome (.lint request)).exitCode := by
  rcases outcome_or_written (resolve_reformed session.files own form) fun config => rfl with
    ⟨alike, -⟩ | ⟨config, report, -, first, second⟩
  · rw [alike]
  · rw [first, second]
    rfl

/-! ### Command lines -/

/-- A switch in front of a command line without one leaves what is written unchanged, and ends the run with one instead
    of zero just where warnings are all that is found and do not count. Another form of output in place of the one
    asked for leaves the exit code unchanged. -/
theorem flags_exact (session : Session) {arguments : List Text} {command : Command}
    (accepted : Command.ofArguments ("lint".toList :: arguments) = .ok command)
    (unswitched : Command.Unswitched arguments) :
    (∃ request strict, command = .lint request ∧
      Command.ofArguments ("lint".toList :: "--deny-warnings".toList :: arguments) = .ok strict ∧
      (session.outcome strict).stdout = (session.outcome command).stdout ∧
      (session.outcome strict).stderr = (session.outcome command).stderr ∧
      (OnlyWarned session request →
        (session.outcome command).exitCode = 0 ∧ (session.outcome strict).exitCode = 1) ∧
      (¬ OnlyWarned session request → (session.outcome strict).exitCode = (session.outcome command).exitCode)) ∧
    ∀ form reformed, Command.Reformed form arguments reformed →
      ∃ other, Command.ofArguments ("lint".toList :: reformed) = .ok other ∧
        (session.outcome other).exitCode = (session.outcome command).exitCode := by
  constructor
  · obtain ⟨request, rfl, -, strict⟩ := Command.ofArguments_switched accepted unswitched
    exact ⟨request, _, rfl, strict, outcome_strict session request⟩
  · intro form reformed change
    obtain ⟨request, rfl, ⟨asked, own⟩, read⟩ := Command.ofArguments_reformed accepted unswitched change
    exact ⟨_, read, exitCode_reformed session own form⟩

/-- A session with two scales on the standard input and no files. -/
def twoScales : Session where
  files := .ofLocations []
  stdin := ⟨#[46, 115, 99, 97, 108, 101, 40, 34, 97, 34, 41, 46, 115, 99, 97, 108, 101, 40, 34, 98, 34, 41]⟩
  color := false

theorem readStdin_twoScales : twoScales.readStdin = .ok ".scale(\"a\").scale(\"b\")".toList := rfl

theorem report_twoScales (config : Config.Effective) : twoScales.report config [stdinName] =
    .ok ⟨[.ofSource stdinName ".scale(\"a\").scale(\"b\")".toList]⟩ := by
  have below : twoScales.reportBelow ⟨['.']⟩ [] = .ok ⟨[]⟩ := by cbv
  have others : [stdinName].filter (· ≠ stdinName) = [] := by decide
  rw [report, if_neg (by decide), others, below]
  simp [addStdin, readStdin_twoScales]

theorem onlyWarned_twoScales : OnlyWarned twoScales { output := some .human, paths := [stdinName] } := by
  refine ⟨⟨⟨['.']⟩, .human, Config.defaultPatterns, false⟩, _, ⟨by cbv, report_twoScales _⟩, ?_⟩
  have counted : Report.summary ⟨[.ofSource stdinName ".scale(\"a\").scale(\"b\")".toList]⟩ = ⟨0, 1, 1⟩ := by
    decide +kernel
  rw [counted]
  exact ⟨rfl, Nat.one_pos, rfl⟩

/-- Two scales end a run with zero in both forms of output, and with one if the switch is added. -/
theorem flags_exact_two_scales : ∃ command strict other,
    Command.ofArguments ["lint".toList, "--output".toList, "human".toList, ['-']] = .ok command ∧
    Command.ofArguments ["lint".toList, "--deny-warnings".toList, "--output".toList, "human".toList, ['-']] =
      .ok strict ∧
    Command.ofArguments ["lint".toList, "--output".toList, "json".toList, ['-']] = .ok other ∧
    (twoScales.outcome command).exitCode = 0 ∧ (twoScales.outcome strict).exitCode = 1 ∧
    (twoScales.outcome other).exitCode = 0 := by
  have accepted : Command.ofArguments ["lint".toList, "--output".toList, "human".toList, ['-']] =
      .ok (.lint { output := some .human, paths := [stdinName] }) := by decide
  have unswitched : Command.Unswitched ["--output".toList, "human".toList, ['-']] := by
    rw [Command.Unswitched]
    decide
  obtain ⟨⟨request, strict, same, read, -, -, onlyWarned, -⟩, reformed⟩ := flags_exact twoScales accepted unswitched
  obtain ⟨other, readOther, alike⟩ := reformed .json _
    (@Command.Reformed.apart .json [] List.not_mem_nil .human [['-']])
  cases same
  obtain ⟨passed, failed⟩ := onlyWarned onlyWarned_twoScales
  exact ⟨_, strict, other, accepted, read, readOther, passed, failed, alike.trans passed⟩

end Session
end PatternLint
