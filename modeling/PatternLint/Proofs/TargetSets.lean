import PatternLint.Proofs.EqualPaths
import PatternLint.Proofs.NamedFiles

/-!
# Targets as a set

Targets ascend, and up to their spelling they are what the patterns stand for; of equal paths the one that is found first
is kept. So patterns in another order, or listed more often, give the same targets up to their spelling, and the same
report when spellings do not matter (`Targets.set_exact`). They can matter in two ways: an absolute path below a relative
base is named as it is spelled, and the base itself is spelled like a directory by an empty pattern or a dot, although a
wildcard may find it to be a file.
-/
namespace PatternLint

namespace Path

/-- A path below a base ends as it does alone. -/
theorem getLast?_segments_join (base path : Path) : (base.join path).segments.getLast? = path.segments.getLast? := by
  cases absolute : path.isAbsolute with
  | true => rw [join_of_isAbsolute base absolute]
  | false =>
    by_cases empty : base.text = []
    · rw [join_of_empty empty]
    · rw [segments_join absolute empty, List.getLast?_append_of_ne_nil _ path.segments_ne_nil]

/-- A path that ends in a piece that is no component is empty, a dot, or ends in a slash with nothing or a dot behind. -/
theorem spelling_of_void {path : Path} (closed : ∃ last ∈ path.segments.getLast?, isVoid last = true) :
    path.text = [] ∨ path.text = ['.'] ∨ ['/'] <:+ path.text ∨ "/.".toList <:+ path.text := by
  obtain ⟨last, ends, void⟩ := closed
  rcases (isVoid_iff last).mp void with rfl | rfl
  · exact ((Text.getLast?_splitOn_eq_some_iff (by decide) path.text).mp ends).imp_right fun closed => .inr (.inl closed)
  · exact .inr (((Text.getLast?_splitOn_eq_some_iff (by decide) path.text).mp ends).imp_right .inr)

end Path

namespace Targets

variable {files : FileSystem} {base : Path} {patterns : List Text} {targets : List Path}

/-! ### Collecting -/

/-- Whether targets can be collected does not depend on the order of the patterns. -/
theorem exists_collected_iff : (∃ targets, collect files base patterns = .ok targets) ↔
    ∀ pattern ∈ patterns, ∃ found, ofPattern files base pattern = .ok found := by
  rw [← exists_ofPatterns_iff]
  simp only [collect_eq_ok_iff]
  exact ⟨fun ⟨_, paths, read, _⟩ => ⟨paths, read⟩, fun ⟨paths, read⟩ => ⟨_, paths, read, rfl⟩⟩

theorem pairwise_lt (collected : collect files base patterns = .ok targets) :
    targets.Pairwise fun a b => Path.order a b = .lt := by
  obtain ⟨paths, _, rfl⟩ := collect_eq_ok_iff.mp collected
  exact Ordered.pairwise_lt_ofList paths

/-- What a wildcard stands for is a file. -/
theorem isFile_of_standsFor {pattern : Text} {path : Path} (stands : StandsFor files base pattern path)
    (wild : Glob.isPattern pattern = true) : files.isFile path = true := by
  obtain ⟨glob, _, found⟩ := (standsFor_iff_of_wild wild).mp stands
  exact ((Glob.mem_files_iff files glob path).mp found).2.1

/-- A path yields itself below the base, whether there is anything or not, and a wildcard the files that its components
    lead to. -/
inductive Yields (files : FileSystem) (base : Path) (pattern : Text) : Path → Prop
  | path : Glob.isPattern pattern = false → Yields files base pattern (base.join ⟨pattern⟩)
  | file {glob : Glob.Pattern} {path : Path} : Glob.isPattern pattern = true →
      Glob.Pattern.ofText (base.join ⟨pattern⟩).text = .ok glob → glob.onlyDirectories = false →
      files.isFile path = true → Glob.Leads files glob.pieces ⟨if glob.isAbsolute then ['/'] else ['.']⟩ path →
      Yields files base pattern path

theorem yields_iff {pattern : Text} {path : Path} :
    Yields files base pattern path ↔ StandsFor files base pattern path := by
  constructor
  · intro yields
    cases yields with
    | path plain => exact .path plain
    | file wild parsed filed isFile leads =>
      exact .found wild parsed ((Glob.mem_files_iff files _ path).mpr ⟨filed, isFile, leads⟩)
  · intro stands
    cases stands with
    | path plain => exact .path plain
    | found wild parsed found =>
      obtain ⟨filed, isFile, leads⟩ := (Glob.mem_files_iff files _ path).mp found
      exact .file wild parsed filed isFile leads

/-- A pattern stands for a path, and for none before it that equals it. -/
def FindsFirst (files : FileSystem) (base : Path) (pattern : Text) (path : Path) : Prop :=
  ∃ found, ofPattern files base pattern = .ok found ∧
    found.find? (fun other => other.components = path.components) = some path

theorem FindsFirst.standsFor {pattern : Text} {path : Path} (first : FindsFirst files base pattern path) :
    StandsFor files base pattern path := by
  obtain ⟨found, read, first⟩ := first
  exact (mem_ofPattern_iff read path).mp (List.mem_of_find?_eq_some first)

theorem exists_findsFirst_of_find? {paths : List Path} (read : ofPatterns files base patterns = .ok paths) {path : Path}
    (first : paths.find? (fun other => other.components = path.components) = some path) :
    ∃ pattern ∈ patterns, FindsFirst files base pattern path := by
  induction patterns generalizing paths with
  | nil =>
    cases read
    cases first
  | cons pattern patterns ih =>
    obtain ⟨found, more, own, rest, rfl⟩ := ofPatterns_cons_eq_ok_iff.mp read
    rw [List.find?_append, Option.or_eq_some_iff] at first
    rcases first with here | ⟨_, later⟩
    · exact ⟨pattern, List.mem_cons_self, found, own, here⟩
    · obtain ⟨other, listed, first⟩ := ih rest later
      exact ⟨other, List.mem_cons_of_mem pattern listed, first⟩

/-- Of equal paths the one that is found first is kept. -/
theorem find?_of_kept {paths : List Path} {target : Path} (kept : target ∈ Ordered.ofList Path.order paths) :
    paths.find? (fun path => path.components = target.components) = some target := by
  simp only [← Path.order_eq_iff]
  exact Ordered.find?_ofList kept

/-- Every target is found first by some pattern. -/
theorem exists_findsFirst (collected : collect files base patterns = .ok targets) {target : Path}
    (member : target ∈ targets) : ∃ pattern ∈ patterns, FindsFirst files base pattern target := by
  obtain ⟨paths, read, rfl⟩ := collect_eq_ok_iff.mp collected
  exact exists_findsFirst_of_find? read (find?_of_kept member)

/-- Patterns in another order, or listed more often, give the same targets up to their spelling. -/
theorem forall₂_targets {others : List Text} (same : ∀ pattern, pattern ∈ others ↔ pattern ∈ patterns)
    (collected : collect files base patterns = .ok targets) {targets' : List Path}
    (collected' : collect files base others = .ok targets') :
    List.Forall₂ (fun a b => Path.order a b = .eq) targets' targets := by
  refine Ordered.forall₂_of_pairwise_lt (pairwise_lt collected') (pairwise_lt collected) (fun a member => ?_)
    fun b member => ?_
  · obtain ⟨pattern, listed, stands⟩ := standsFor_of_mem collected' member
    obtain ⟨b, kept, alike⟩ := exists_target collected ((same pattern).mp listed) stands
    exact ⟨b, kept, (Path.order_eq_iff a b).mpr alike.symm⟩
  · obtain ⟨pattern, listed, stands⟩ := standsFor_of_mem collected member
    obtain ⟨a, kept, alike⟩ := exists_target collected' ((same pattern).mpr listed) stands
    exact ⟨a, kept, (Path.order_eq_iff b a).mpr alike.symm⟩

theorem map_eq_of_forall₂ {β : Type} {f : Path → β} {list other : List Path}
    (alike : List.Forall₂ (fun a b => Path.order a b = .eq) list other)
    (same : ∀ a ∈ list, ∀ b ∈ other, a.components = b.components → f a = f b) : list.map f = other.map f := by
  rw [← List.forall₂_eq_eq_eq, List.forall₂_map_left_iff, List.forall₂_map_right_iff, List.forall₂_iff_zip]
  obtain ⟨length, zipped⟩ := List.forall₂_iff_zip.mp alike
  refine ⟨length, fun {a b} member => ?_⟩
  obtain ⟨inList, inOther⟩ := List.of_mem_zip member
  exact same a inList b inOther ((Path.order_eq_iff a b).mp (zipped member))

/-! ### Spellings that do not matter -/

/-- What patterns below a base must keep to for the spelling of targets not to matter in a report. -/
structure Unambiguous (files : FileSystem) (base : Path) (patterns : List Text) : Prop where
  descending : .up ∉ base.components
  /-- No path ends like that of a directory, but for an empty one and a dot. -/
  isOpen : ∀ pattern ∈ patterns, Glob.isPattern pattern = false → ¬ ['/'] <:+ pattern ∧ ¬ "/.".toList <:+ pattern
  /-- With an empty path or a dot nothing stands for the base as a file. -/
  baseOpen : [] ∈ patterns ∨ ['.'] ∈ patterns → ∀ pattern ∈ patterns, ∀ path, StandsFor files base pattern path →
    path.components = base.components → files.isFile path = false
  /-- Below a relative base equal absolute paths are spelled alike, whichever pattern finds them. -/
  alike : base.isAbsolute = false → ∀ pattern ∈ patterns, ∀ other ∈ patterns, ∀ a b,
    FindsFirst files base pattern a → FindsFirst files base other b → a.isAbsolute = true →
    a.components = b.components → a = b

/-- An empty path and a dot stand for the base or the current directory. -/
theorem components_join_of_blank (base : Path) {pattern : Text} (blank : pattern = [] ∨ pattern = ['.']) :
    (base.join ⟨pattern⟩).components = base.components ∨ (base.join ⟨pattern⟩).isHere = true := by
  have relative : Path.isAbsolute ⟨pattern⟩ = false := by rcases blank with rfl | rfl <;> rfl
  have unstepped : Path.steps ⟨pattern⟩ = [] := by rcases blank with rfl | rfl <;> rfl
  by_cases empty : base.text = []
  · rw [Path.join_of_empty empty, Path.components_of_empty empty]
    rcases blank with rfl | rfl
    · exact .inl rfl
    · exact .inr rfl
  · rw [Path.components_join relative empty, unstepped, List.append_nil]
    exact .inl rfl

section
variable (clear : Unambiguous files base patterns) {pattern other : Text} (listed : pattern ∈ patterns)
  (alsoListed : other ∈ patterns) {a b : Path} (stands : StandsFor files base pattern a)
  (alsoStands : StandsFor files base other b) (same : a.components = b.components)
include clear listed alsoListed stands alsoStands same

theorem isFile_of_unambiguous (isFile : files.isFile a = true) : files.isFile b = true := by
  cases wild : Glob.isPattern other with
  | true => exact isFile_of_standsFor alsoStands wild
  | false =>
    refine (FileSystem.isFile_of_components same isFile).resolve_right fun closed => ?_
    rw [(standsFor_iff_of_plain wild).mp alsoStands] at same closed
    rw [Path.getLast?_segments_join] at closed
    obtain ⟨noSlash, noDot⟩ := clear.isOpen other alsoListed wild
    have blank : other = [] ∨ other = ['.'] := by
      rcases Path.spelling_of_void closed with empty | dot | slash | slashDot
      · exact .inl empty
      · exact .inr dot
      · exact absurd slash noSlash
      · exact absurd slashDot noDot
    have isNoFile : files.isFile a = false := by
      rcases components_join_of_blank base blank with there | here
      · have inPatterns : [] ∈ patterns ∨ ['.'] ∈ patterns := by rcases blank with rfl | rfl <;> simp [alsoListed]
        exact clear.baseOpen inPatterns pattern listed a stands (same.trans there)
      · refine FileSystem.isFile_of_isHere ?_
        rwa [Path.isHere, same, ← Path.isHere]
    rw [isFile] at isNoFile
    cases isNoFile

end

theorem isAbsolute_of_ground {pattern : Text} {path : Path} (absolute : base.isAbsolute = true)
    (stands : StandsFor files base pattern path) : path.isAbsolute = true := by
  cases below : Path.isAbsolute ⟨pattern⟩ with
  | true =>
    cases stands with
    | path => rwa [Path.join_of_isAbsolute base below]
    | found _ parsed found => rw [Glob.isAbsolute_of_found parsed found, Path.join_of_isAbsolute base below, below]
  | false =>
    rw [isAbsolute_of_standsFor (Path.text_ne_nil_of_isAbsolute absolute) below stands, absolute]

/-- Equal paths have equal entries, whichever pattern finds them. -/
theorem entry_eq_of_unambiguous (clear : Unambiguous files base patterns) {pattern other : Text} (listed : pattern ∈ patterns)
    (alsoListed : other ∈ patterns) {a b : Path} (first : FindsFirst files base pattern a)
    (alsoFirst : FindsFirst files base other b) (same : a.components = b.components) :
    entry files base a = entry files base b := by
  have stands := first.standsFor
  have alsoStands := alsoFirst.standsFor
  have read : files.read a = files.read b := by
    refine FileSystem.read_eq same (Bool.eq_iff_iff.mpr ⟨?_, ?_⟩)
    · exact isFile_of_unambiguous clear listed alsoListed stands alsoStands same
    · exact isFile_of_unambiguous clear alsoListed listed alsoStands stands same.symm
  refine entry_eq (nameFrom_eq clear.descending same ?_) read
  cases ground : base.isAbsolute with
  | true => exact .inl (isAbsolute_of_ground ground stands)
  | false =>
    cases side : a.isAbsolute with
    | false => exact .inl rfl
    | true => exact .inr (clear.alike ground pattern listed other alsoListed a b first alsoFirst side same)

/-! ### Targets as a set -/

/-- Targets ascend strictly. Up to their spelling they are the paths that are listed and the files that wildcards lead to,
    and of equal paths the first is kept. The same patterns in another order, or listed more often, give the same targets
    up to their spelling, and the same report if spellings do not matter. -/
theorem set_exact (collected : collect files base patterns = .ok targets) :
    (targets.Pairwise fun a b => Path.order a b = .lt) ∧
    (∀ path : Path, (∃ target ∈ targets, target.components = path.components) ↔
      ∃ pattern ∈ patterns, ∃ other, Yields files base pattern other ∧ other.components = path.components) ∧
    (∃ paths, ofPatterns files base patterns = .ok paths ∧ ∀ target ∈ targets,
      paths.find? (fun path => path.components = target.components) = some target) ∧
    ∀ others, (∀ pattern, pattern ∈ others ↔ pattern ∈ patterns) →
      ∃ targets', collect files base others = .ok targets' ∧
        targets'.map (·.components) = targets.map (·.components) ∧
        (Unambiguous files base patterns → lint files base targets' = lint files base targets) := by
  refine ⟨pairwise_lt collected, fun path => ⟨?_, ?_⟩, ?_, fun others same => ?_⟩
  · rintro ⟨target, member, alike⟩
    obtain ⟨pattern, listed, stands⟩ := standsFor_of_mem collected member
    exact ⟨pattern, listed, target, yields_iff.mpr stands, alike⟩
  · rintro ⟨pattern, listed, other, yields, alike⟩
    obtain ⟨target, member, spelled⟩ := exists_target collected listed (yields_iff.mp yields)
    exact ⟨target, member, spelled.trans alike⟩
  · obtain ⟨paths, read, rfl⟩ := collect_eq_ok_iff.mp collected
    exact ⟨paths, read, fun target member => find?_of_kept member⟩
  · obtain ⟨targets', collected'⟩ : ∃ targets', collect files base others = .ok targets' :=
      exists_collected_iff.mpr fun pattern listed =>
        exists_collected_iff.mp ⟨targets, collected⟩ pattern ((same pattern).mp listed)
    have alike := forall₂_targets same collected collected'
    refine ⟨targets', collected', map_eq_of_forall₂ alike fun _ _ _ _ => id, fun clear => ?_⟩
    have entries : targets'.map (entry files base) = targets.map (entry files base) := by
      refine map_eq_of_forall₂ alike fun a inOthers b inTargets components => ?_
      obtain ⟨pattern, listed, first⟩ := exists_findsFirst collected' inOthers
      obtain ⟨other, alsoListed, alsoFirst⟩ := exists_findsFirst collected inTargets
      exact entry_eq_of_unambiguous clear ((same pattern).mp listed) alsoListed first alsoFirst components
    rw [lint, lint, entries]

/-- A file that is found in two spellings. -/
theorem set_exact_two_spellings :
    collect (.ofLocations [[⟨['x'], rfl⟩, ⟨['a'], rfl⟩]]) ⟨['x']⟩ [['a'], ['*'], "./a".toList] = .ok [⟨"x/a".toList⟩] ∧
    collect (.ofLocations [[⟨['x'], rfl⟩, ⟨['a'], rfl⟩]]) ⟨['x']⟩ ["./a".toList, ['*'], ['a'], ['a']] =
      .ok [⟨"x/./a".toList⟩] ∧
    lint (.ofLocations [[⟨['x'], rfl⟩, ⟨['a'], rfl⟩]]) ⟨['x']⟩ [⟨"x/./a".toList⟩] =
      lint (.ofLocations [[⟨['x'], rfl⟩, ⟨['a'], rfl⟩]]) ⟨['x']⟩ [⟨"x/a".toList⟩] := by
  have collected : collect (.ofLocations [[⟨['x'], rfl⟩, ⟨['a'], rfl⟩]]) ⟨['x']⟩ [['a'], ['*'], "./a".toList] =
    .ok [⟨"x/a".toList⟩] := by cbv
  have again : collect (.ofLocations [[⟨['x'], rfl⟩, ⟨['a'], rfl⟩]]) ⟨['x']⟩ ["./a".toList, ['*'], ['a'], ['a']] =
    .ok [⟨"x/./a".toList⟩] := by cbv
  have clear : Unambiguous (.ofLocations [[⟨['x'], rfl⟩, ⟨['a'], rfl⟩]]) ⟨['x']⟩ [['a'], ['*'], "./a".toList] := by
    refine ⟨by decide, by decide, fun blank => absurd blank (by decide), ?_⟩
    intro _ pattern listed _ _ a _ first _ absolute _
    have below : ∀ pattern ∈ [['a'], ['*'], "./a".toList], Path.isAbsolute ⟨pattern⟩ = false := by decide
    rw [isAbsolute_of_standsFor (by decide) (below pattern listed) first.standsFor] at absolute
    cases absolute
  obtain ⟨targets', collected', _, report⟩ := (set_exact collected).2.2.2 ["./a".toList, ['*'], ['a'], ['a']]
    (by intro pattern; simp only [List.mem_cons, List.not_mem_nil]; tauto)
  cases again.symm.trans collected'
  exact ⟨collected, again, report clear⟩

theorem lint_singleton (files : FileSystem) (base target : Path) :
    lint files base [target] = ⟨[entry files base target]⟩ := by
  rw [lint, List.map_singleton, List.mergeSort_singleton]

/-- Below a relative base an absolute path is named as it is spelled first. -/
theorem respelled_name (files : FileSystem) :
    lint files ⟨['.']⟩ [⟨"/n/x".toList⟩] ≠ lint files ⟨['.']⟩ [⟨"/n//x".toList⟩] := by
  intro same
  rw [lint_singleton, lint_singleton] at same
  have names := congrArg (fun report : Report => report.files.map (·.file)) same
  simp only [List.map_singleton, entry_file] at names
  exact absurd names (by decide)

/-- A base that a wildcard finds to be a file is not read when it is first spelled like a directory. -/
theorem respelled_base :
    lint (.ofLocations [[⟨"**".toList, rfl⟩]]) ⟨"**".toList⟩ [⟨"**/".toList⟩] ≠
      lint (.ofLocations [[⟨"**".toList, rfl⟩]]) ⟨"**".toList⟩ [⟨"**".toList⟩] := by
  intro same
  rw [lint_singleton, lint_singleton] at same
  have closed : FileSystem.read (.ofLocations [[⟨"**".toList, rfl⟩]]) ⟨"**/".toList⟩ = .error .notDirectory := by cbv
  have isFile : FileSystem.read (.ofLocations [[⟨"**".toList, rfl⟩]]) ⟨"**".toList⟩ = .ok [] := by cbv
  have entries := (List.cons.inj (Report.mk.inj same)).1
  rw [entry, entry, closed, isFile] at entries
  -- what cannot be read has an error, and the empty source has none
  have counts : 1 = (Lint.check []).diagnostics.length :=
    congrArg (fun entry : FileReport => entry.result.diagnostics.length) entries
  exact absurd counts (by decide +kernel)

/-- Other orders of patterns give other reports, although no base goes up and no path ends like that of a directory: an
    absolute path below a relative base is named as it is spelled first, and a base that a wildcard finds to be a file is
    read as it is spelled first. -/
theorem reordered_reports :
    (.up ∉ Path.components ⟨['.']⟩ ∧ .up ∉ Path.components ⟨"**".toList⟩ ∧
      ∀ pattern ∈ ["/n/x".toList, "/n//x".toList, []], ¬ ['/'] <:+ pattern ∧ ¬ "/.".toList <:+ pattern) ∧
    (collect (.ofLocations []) ⟨['.']⟩ ["/n/x".toList, "/n//x".toList] = .ok [⟨"/n/x".toList⟩] ∧
      collect (.ofLocations []) ⟨['.']⟩ ["/n//x".toList, "/n/x".toList] = .ok [⟨"/n//x".toList⟩] ∧
      lint (.ofLocations []) ⟨['.']⟩ [⟨"/n/x".toList⟩] ≠ lint (.ofLocations []) ⟨['.']⟩ [⟨"/n//x".toList⟩]) ∧
    collect (.ofLocations [[⟨"**".toList, rfl⟩]]) ⟨"**".toList⟩ [[], "[*][*]".toList] = .ok [⟨"**/".toList⟩] ∧
    collect (.ofLocations [[⟨"**".toList, rfl⟩]]) ⟨"**".toList⟩ ["[*][*]".toList, []] = .ok [⟨"**".toList⟩] ∧
    lint (.ofLocations [[⟨"**".toList, rfl⟩]]) ⟨"**".toList⟩ [⟨"**/".toList⟩] ≠
      lint (.ofLocations [[⟨"**".toList, rfl⟩]]) ⟨"**".toList⟩ [⟨"**".toList⟩] :=
  ⟨⟨by decide, by decide, by decide⟩, ⟨by cbv, by cbv, respelled_name _⟩, by cbv, by cbv, respelled_base⟩

end Targets
end PatternLint
