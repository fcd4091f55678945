import Mathlib.Algebra.Ring.Nat
import PatternLint.Proofs.Edits
import PatternLint.Proofs.ExitCode
import PatternLint.Proofs.Flags

/-!
# Reports over explicit paths

A command with paths reports on these and on nothing else: the targets that they stand for from the current directory,
and at the end the standard input if one of them asks for it. The configuration plays no part in that, nor does the root
(`report_of_paths`), and of the standard input it counts only whether it is asked for (`report_congr`). The configuration
file matters where a path leads to it, like any other file (`explicit_exact`).
-/
namespace PatternLint

theorem LintResult.length_errors (result : LintResult) :
    result.errors.length = result.diagnostics.countP (·.isError) := (List.countP_eq_length_filter).symm

theorem LintResult.length_warnings (result : LintResult) :
    result.warnings.length = result.diagnostics.countP (!·.isError) := (List.countP_eq_length_filter).symm

/-- The counts of a report are those of its entries. -/
theorem Report.summary_eq (report : Report) : report.summary =
    ⟨(report.files.map (·.result.errors.length)).sum, (report.files.map (·.result.warnings.length)).sum,
      report.files.length⟩ := by
  simp only [summary, diagnostics, List.countP_flatMap, LintResult.length_errors, LintResult.length_warnings]
  rfl

/-- The entries of targets come in the order of the names, which does not hang on what is read. -/
theorem Targets.lint_eq (files : FileSystem) (base : Path) (targets : List Path) :
    (lint files base targets).files =
      (targets.mergeSort fun a b => (compare (nameFrom base a) (nameFrom base b)).isLE).map (entry files base) := by
  rw [lint]
  refine (List.map_mergeSort fun a _ b _ => ?_).symm
  rw [entry_file, entry_file]

namespace Session

/-! ### What a report hangs on -/

/-- The current directory as it is named for paths. -/
def currentDirectory : Path := ⟨['.']⟩

/-- Whether lists of paths name the same files in the same order, and both ask for the standard input or neither does. -/
def SameArguments (paths others : List Text) : Prop :=
  others.filter (· ≠ stdinName) = paths.filter (· ≠ stdinName) ∧ (stdinName ∈ others ↔ stdinName ∈ paths)

theorem SameArguments.ne_nil {paths others : List Text} (same : SameArguments paths others) (explicit : paths ≠ []) :
    others ≠ [] := by
  rintro rfl
  obtain ⟨files, stdin⟩ := same
  obtain ⟨path, listed⟩ := List.exists_mem_of_ne_nil paths explicit
  by_cases piped : path = stdinName
  · subst piped
    exact List.not_mem_nil (stdin.mpr listed)
  · have kept : path ∈ paths.filter (· ≠ stdinName) := List.mem_filter.mpr ⟨listed, by simpa using piped⟩
    rw [← files] at kept
    cases kept

/-- With paths nothing is taken from the configuration. -/
theorem report_of_paths {session : Session} {paths : List Text} (explicit : paths ≠ []) (config : Config.Effective) :
    session.report config paths =
      match Targets.collect session.files currentDirectory (paths.filter (· ≠ stdinName)) with
      | .error bad => .error (.pattern bad)
      | .ok targets =>
        if stdinName ∈ paths then session.addStdin (Targets.lint session.files currentDirectory targets)
        else .ok (Targets.lint session.files currentDirectory targets) := by
  have base : baseOf config paths = currentDirectory := if_neg (by simpa using explicit)
  have patterns : patternsOf config paths = paths.filter (· ≠ stdinName) := if_neg (by simpa using explicit)
  rw [← base, ← patterns]
  cases collected : Targets.collect session.files (baseOf config paths) (patternsOf config paths) with
  | error bad => exact report_of_bad collected
  | ok targets => exact report_of_collected collected

/-- Neither the configuration nor the place and the number of requests for the standard input plays a part. -/
theorem report_congr {session : Session} {paths others : List Text} (explicit : paths ≠ [])
    (same : SameArguments paths others) (config other : Config.Effective) :
    session.report other others = session.report config paths := by
  rw [report_of_paths explicit, report_of_paths (same.ne_nil explicit), same.1]
  simp only [same.2]

/-! ### What a report holds -/

/-- The entries for the standard input: one if it is asked for, and none if not. -/
inductive Piped (session : Session) (paths : List Text) : List FileReport → Prop
  | asked {source : Text} : stdinName ∈ paths → Text.decode? session.stdin = some source →
      Piped session paths [.ofSource stdinName source]
  | unasked : stdinName ∉ paths → Piped session paths []

/-- What a report over paths is, given the targets that the paths stand for. -/
structure Holds (session : Session) (paths : List Text) (targets : List Path) (report : Report) : Prop where
  collected : Targets.collect session.files currentDirectory (paths.filter (· ≠ stdinName)) = .ok targets
  files : ∃ piped, Piped session paths piped ∧
    report.files = (Targets.lint session.files currentDirectory targets).files ++ piped
  summary : report.summary =
    ⟨(report.files.map (·.result.errors.length)).sum, (report.files.map (·.result.warnings.length)).sum,
      report.files.length⟩

theorem report_of_piped {session : Session} {paths : List Text} {targets : List Path} {piped : List FileReport}
    (explicit : paths ≠ []) (collected : Targets.collect session.files currentDirectory
      (paths.filter (· ≠ stdinName)) = .ok targets)
    (own : Piped session paths piped) (config : Config.Effective) : session.report config paths =
      .ok ⟨(Targets.lint session.files currentDirectory targets).files ++ piped⟩ := by
  rw [report_of_paths explicit, collected]
  cases own with
  | asked asked decoded => simp [asked, addStdin_eq_ok_iff, decoded]
  | unasked unasked => simp [unasked]

theorem holds_of_report {session : Session} {config : Config.Effective} {paths : List Text} {report : Report}
    (explicit : paths ≠ []) (reported : session.report config paths = .ok report) :
    ∃ targets, Holds session paths targets report := by
  rw [report_of_paths explicit] at reported
  split at reported
  · cases reported
  · next targets collected =>
    split at reported
    · next piped =>
      obtain ⟨source, decoded, rfl⟩ := addStdin_eq_ok_iff.mp reported
      exact ⟨targets, collected, ⟨_, .asked piped decoded, rfl⟩, Report.summary_eq _⟩
    · next unpiped =>
      cases reported
      exact ⟨targets, collected, ⟨[], .unasked unpiped, (List.append_nil _).symm⟩, Report.summary_eq _⟩

/-! ### Another text in a file -/

/-- The session after the file at a place has got other contents. -/
def edit (session : Session) (place : Location) (contents : ByteArray) : Session :=
  { session with files := session.files.edit place contents }

/-- What becomes of an entry when the file at a place gets other contents: nothing, unless it is that of a target that
    leads to this file. -/
inductive EditedEntry (files : FileSystem) (place : Location) (contents : ByteArray) (targets : List Path) :
    FileReport → FileReport → Prop
  | kept (entry : FileReport) : EditedEntry files place contents targets entry entry
  | edited {target : Path} {old : ByteArray} : target ∈ targets → files.locate target = .ok (place, .file old) →
      EditedEntry files place contents targets (Targets.entry files currentDirectory target)
        (Targets.entry (files.edit place contents) currentDirectory target)

theorem forall₂_editedEntry (files : FileSystem) (place : Location) (contents : ByteArray) (targets : List Path)
    {sorted : List Path} (own : ∀ target ∈ sorted, target ∈ targets) (piped : List FileReport) :
    List.Forall₂ (EditedEntry files place contents targets)
      (sorted.map (Targets.entry files currentDirectory) ++ piped)
      (sorted.map (Targets.entry (files.edit place contents) currentDirectory) ++ piped) := by
  induction sorted with
  | nil => exact List.forall₂_same.mpr fun entry _ => .kept entry
  | cons target sorted ih =>
    refine .cons ?_ (ih fun target member => own target (List.mem_cons_of_mem _ member))
    by_cases there : ∃ old, files.locate target = .ok (place, .file old)
    · obtain ⟨old, located⟩ := there
      exact .edited (own target List.mem_cons_self) located
    · rw [Targets.entry_edit files place contents currentDirectory fun old located => there ⟨old, located⟩]
      exact .kept _

theorem eq_of_forall₂_editedEntry {files : FileSystem} {place : Location} {contents : ByteArray} {targets : List Path}
    (elsewhere : ∀ target ∈ targets, ∀ old, files.locate target ≠ .ok (place, .file old))
    {before after : List FileReport}
    (become : List.Forall₂ (EditedEntry files place contents targets) before after) : after = before := by
  induction become with
  | nil => rfl
  | cons becomes _ ih =>
    cases becomes with
    | kept => rw [ih]
    | edited listed located => exact absurd located (elsewhere _ listed _)

/-- The report after the file at a place has got other contents: the same targets, read again. -/
theorem exists_report_edit {session : Session} {paths : List Text} {targets : List Path} {report : Report}
    (explicit : paths ≠ []) (holds : Holds session paths targets report) (place : Location) (contents : ByteArray)
    (config : Config.Effective) : ∃ edited, (session.edit place contents).report config paths = .ok edited ∧
      List.Forall₂ (EditedEntry session.files place contents targets) report.files edited.files := by
  obtain ⟨piped, own, files⟩ := holds.files
  have collected : Targets.collect (session.edit place contents).files currentDirectory
      (paths.filter (· ≠ stdinName)) = .ok targets :=
    (Targets.collect_edit session.files place contents currentDirectory _).trans holds.collected
  have ownAfter : Piped (session.edit place contents) paths piped := by
    cases own with
    | asked asked decoded => exact .asked asked decoded
    | unasked unasked => exact .unasked unasked
  refine ⟨_, report_of_piped explicit collected ownAfter config, ?_⟩
  rw [files, Targets.lint_eq]
  dsimp only
  rw [Targets.lint_eq]
  exact forall₂_editedEntry session.files place contents targets (fun target member => List.mem_mergeSort.mp member) piped

/-! ### Reports over explicit paths -/

/-- With paths a report holds the entries of the targets that the paths stand for from the current directory, in the order
    of their names, and then one entry for the standard input if this is asked for, and its counts are those of all
    entries. Other settings, another root, and other places and numbers of requests for the standard input leave it as it
    is. Another text in some file, that of the configuration or any other, leaves all entries as they are but those of
    targets that lead to this file. If nothing but the standard input is asked for, the report has no other entry. -/
theorem explicit_exact (session : Session) {request : LintRequest} {config : Config.Effective} {report : Report}
    (explicit : request.paths ≠ []) (reports : Reports session request config report) :
    ∃ targets, Holds session request.paths targets report ∧
      (∀ other setting, SameArguments request.paths other.paths →
        Config.resolve session.files (overrides other) = .ok setting → Reports session other setting report) ∧
      (∀ place contents other setting, SameArguments request.paths other.paths →
        Config.resolve (session.files.edit place contents) (overrides other) = .ok setting →
          ∃ edited, Reports (session.edit place contents) other setting edited ∧
            List.Forall₂ (EditedEntry session.files place contents targets) report.files edited.files ∧
            ((∀ target ∈ targets, ∀ old, session.files.locate target ≠ .ok (place, .file old)) → edited = report)) ∧
      ((∀ path ∈ request.paths, path = stdinName) → ∃ source, Text.decode? session.stdin = some source ∧
        report.files = [.ofSource stdinName source]) := by
  obtain ⟨targets, holds⟩ := holds_of_report explicit reports.2
  refine ⟨targets, holds, fun other setting same resolved => ⟨resolved, ?_⟩,
    fun place contents other setting same resolved => ?_, fun only => ?_⟩
  · rw [report_congr explicit same config setting]
    exact reports.2
  · obtain ⟨edited, reported, become⟩ := exists_report_edit explicit holds place contents setting
    refine ⟨edited, ⟨resolved, ?_⟩, become, fun elsewhere => ?_⟩
    · rw [report_congr explicit same setting setting]
      exact reported
    · have same := eq_of_forall₂_editedEntry elsewhere become
      cases edited
      cases report
      cases same
      rfl
  · have none : request.paths.filter (· ≠ stdinName) = [] :=
      List.filter_eq_nil_iff.mpr fun path listed => by simp [only path listed]
    have targetless : targets = [] := by
      refine List.eq_nil_iff_forall_not_mem.mpr fun target member => ?_
      obtain ⟨pattern, listed, _⟩ := Targets.standsFor_of_mem holds.collected member
      rw [none] at listed
      cases listed
    subst targetless
    obtain ⟨piped, own, files⟩ := holds.files
    rw [files, Targets.lint_eq]
    obtain ⟨path, listed⟩ := List.exists_mem_of_ne_nil request.paths explicit
    cases own with
    | asked _ decoded => exact ⟨_, decoded, by simp⟩
    | unasked unasked => exact absurd (only path listed ▸ listed) unasked

/-! ### The configuration file among the arguments -/

/-- A session with nothing but a configuration file. -/
def ownConfig (contents : ByteArray) : Session where
  files := ⟨[([⟨"strudel-lint.toml".toList, rfl⟩], .file contents)], []⟩
  stdin := ⟨#[]⟩
  color := false

section OwnConfig

variable {contents : ByteArray} {source : Text}

theorem read_ownConfig (decoded : Text.decode? contents = some source) :
    (ownConfig contents).files.read ⟨"./strudel-lint.toml".toList⟩ = .ok source := by
  have located : (ownConfig contents).files.locate ⟨"./strudel-lint.toml".toList⟩ =
    .ok ([⟨"strudel-lint.toml".toList, rfl⟩], .file contents) := by cbv
  simp only [FileSystem.read, located, decoded]

theorem resolve_ownConfig (decoded : Text.decode? contents = some source) {pattern : Text}
    (set : Toml.settings? source = some { patterns := some [pattern] }) :
    Config.resolve (ownConfig contents).files {} = .ok ⟨currentDirectory, .human, [pattern], false⟩ := by
  have root : Config.Overrides.root {} (ownConfig contents).files = currentDirectory := by cbv
  have file : Config.file? (ownConfig contents).files currentDirectory =
    some (⟨"./strudel-lint.toml".toList⟩, .toml) := by cbv
  have loaded : Config.load (ownConfig contents).files currentDirectory =
      .ok (some { patterns := some [pattern] }) := by
    simp only [Config.load, file, Config.settings, read_ownConfig decoded, Config.Format.settings?, set]
    rfl
  simp only [Config.resolve, root, loaded]
  rfl

theorem collect_ownConfig (contents : ByteArray) :
    Targets.collect (ownConfig contents).files currentDirectory ["strudel-lint.toml".toList] =
      .ok [⟨"./strudel-lint.toml".toList⟩] := by cbv

theorem report_ownConfig (decoded : Text.decode? contents = some source) {paths : List Text}
    (own : paths.filter (· ≠ stdinName) = ["strudel-lint.toml".toList]) {piped : List FileReport}
    (asked : Piped (ownConfig contents) paths piped) (config : Config.Effective) :
    (ownConfig contents).report config paths =
      .ok ⟨.ofSource "strudel-lint.toml".toList source :: piped⟩ := by
  have explicit : paths ≠ [] := by
    rintro rfl
    cases own
  have collected := (congrArg (Targets.collect (ownConfig contents).files currentDirectory) own).trans
    (collect_ownConfig contents)
  have name : Targets.nameFrom currentDirectory ⟨"./strudel-lint.toml".toList⟩ = "strudel-lint.toml".toList := by cbv
  rw [report_of_piped explicit collected asked, Targets.lint_eq, List.mergeSort_singleton, List.map_singleton,
    Targets.entry, read_ownConfig decoded, name]
  rfl

end OwnConfig

/-- The session whose configuration sets one letter as its only pattern. -/
def letterConfig : Session :=
  ownConfig ⟨#[112, 97, 116, 116, 101, 114, 110, 115, 61, 91, 34, 97, 34, 93]⟩

/-- The session whose configuration sets a call of `eval` as its only pattern. -/
def callConfig : Session :=
  ownConfig ⟨#[112, 97, 116, 116, 101, 114, 110, 115, 61, 91, 34, 101, 118, 97, 108, 40, 49, 41, 34, 93]⟩

theorem reports_letterConfig {paths : List Text} (own : paths.filter (· ≠ stdinName) = ["strudel-lint.toml".toList])
    {piped : List FileReport} (asked : Piped letterConfig paths piped) :
    Reports letterConfig { paths := paths } ⟨currentDirectory, .human, [['a']], false⟩
      ⟨.ofSource "strudel-lint.toml".toList "patterns=[\"a\"]".toList :: piped⟩ :=
  have decoded : Text.decode? _ = some "patterns=[\"a\"]".toList := rfl
  ⟨resolve_ownConfig decoded (by decide +kernel), report_ownConfig decoded own asked _⟩

theorem reports_callConfig {paths : List Text} (own : paths.filter (· ≠ stdinName) = ["strudel-lint.toml".toList])
    {piped : List FileReport} (asked : Piped callConfig paths piped) :
    Reports callConfig { paths := paths } ⟨currentDirectory, .human, ["eval(1)".toList], false⟩
      ⟨.ofSource "strudel-lint.toml".toList "patterns=[\"eval(1)\"]".toList :: piped⟩ :=
  have decoded : Text.decode? _ = some "patterns=[\"eval(1)\"]".toList := rfl
  ⟨resolve_ownConfig decoded (by decide +kernel), report_ownConfig decoded own asked _⟩

/-- The standard input around the configuration file among the paths is reported once, at the end, and the report does not
    change when it is asked for once. -/
theorem explicit_exact_letter_config : ∃ config report,
    Reports letterConfig { paths := [['-'], "strudel-lint.toml".toList, ['-']] } config report ∧
    report = ⟨[.ofSource "strudel-lint.toml".toList "patterns=[\"a\"]".toList, .ofSource ['-'] []]⟩ ∧
    Reports letterConfig { paths := ["strudel-lint.toml".toList, ['-']] } config report := by
  have asked : Piped letterConfig [['-'], "strudel-lint.toml".toList, ['-']] [.ofSource stdinName []] :=
    .asked List.mem_cons_self rfl
  have reports := reports_letterConfig (by decide) asked
  obtain ⟨targets, -, moved, -⟩ := explicit_exact letterConfig (List.cons_ne_nil _ _) reports
  refine ⟨_, _, reports, rfl, moved { paths := ["strudel-lint.toml".toList, ['-']] } _ ?_ reports.1⟩
  rw [SameArguments]
  decide

/-- The configuration file as the only path: what it sets as a pattern is part of the text that is reported on. -/
theorem own_config_changes_report : ∃ place contents config report other,
    callConfig = letterConfig.edit place contents ∧
    Reports letterConfig { paths := ["strudel-lint.toml".toList] } config report ∧
    Reports callConfig { paths := ["strudel-lint.toml".toList] } { config with patterns := ["eval(1)".toList] } other ∧
    report.summary = ⟨0, 0, 1⟩ ∧ other.summary = ⟨1, 0, 1⟩ := by
  have unasked (session : Session) : Piped session ["strudel-lint.toml".toList] [] := .unasked (by decide)
  refine ⟨[⟨"strudel-lint.toml".toList, rfl⟩], _, _, _, _, rfl, reports_letterConfig (by decide) (unasked _),
    reports_callConfig (by decide) (unasked _), ?_, ?_⟩ <;> decide +kernel

end Session
end PatternLint
