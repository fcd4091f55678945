import Mathlib.Data.List.Permutation
import PatternLint.Proofs.Expansion
import PatternLint.Targets

/-!
# Targets and their spellings

A target is what some pattern stands for (`standsFor_of_mem`), and whatever a pattern stands for is a target
(`exists_target`). Targets differ in their components, but two of them can still be the same but for a dot at the
start. When this happens is told by what the patterns stand for (`nodup_dotless_iff`).
-/
namespace PatternLint

/-- Empty files at some locations, seen from the top. -/
def FileSystem.ofLocations (locations : List Location) : FileSystem :=
  ⟨locations.map fun location => (location, .file ⟨#[]⟩), []⟩

namespace Targets

variable {files : FileSystem} {base : Path} {patterns : List Text} {targets : List Path}

/-- The paths that a path or pattern below a base stands for. -/
inductive StandsFor (files : FileSystem) (base : Path) (pattern : Text) : Path → Prop
  | path : Glob.isPattern pattern = false → StandsFor files base pattern (base.join ⟨pattern⟩)
  | found {glob : Glob.Pattern} {path : Path} : Glob.isPattern pattern = true →
      Glob.Pattern.ofText (base.join ⟨pattern⟩).text = .ok glob → path ∈ glob.files files →
      StandsFor files base pattern path

theorem standsFor_iff_of_plain {pattern : Text} (plain : Glob.isPattern pattern = false) {path : Path} :
    StandsFor files base pattern path ↔ path = base.join ⟨pattern⟩ := by
  constructor
  · intro stands
    cases stands with
    | path => rfl
    | found wild => cases plain.symm.trans wild
  · rintro rfl
    exact .path plain

theorem standsFor_iff_of_wild {pattern : Text} (wild : Glob.isPattern pattern = true) {path : Path} :
    StandsFor files base pattern path ↔
      ∃ glob, Glob.Pattern.ofText (base.join ⟨pattern⟩).text = .ok glob ∧ path ∈ glob.files files := by
  constructor
  · intro stands
    cases stands with
    | path plain => cases wild.symm.trans plain
    | found _ parsed found => exact ⟨_, parsed, found⟩
  · rintro ⟨glob, parsed, found⟩
    exact .found wild parsed found

/-! ### What is collected -/

theorem ofPattern_eq_ok_iff {pattern : Text} {paths : List Path} : ofPattern files base pattern = .ok paths ↔
    Glob.isPattern pattern = false ∧ paths = [base.join ⟨pattern⟩] ∨
    Glob.isPattern pattern = true ∧
      ∃ glob, Glob.Pattern.ofText (base.join ⟨pattern⟩).text = .ok glob ∧ paths = glob.files files := by
  rw [ofPattern]
  cases Glob.isPattern pattern with
  | false => simp [eq_comm]
  | true => cases Glob.Pattern.ofText (base.join ⟨pattern⟩).text <;> simp [eq_comm]

theorem mem_ofPattern_iff {pattern : Text} {paths : List Path} (read : ofPattern files base pattern = .ok paths)
    (path : Path) : path ∈ paths ↔ StandsFor files base pattern path := by
  rcases ofPattern_eq_ok_iff.mp read with ⟨plain, rfl⟩ | ⟨wild, glob, parsed, rfl⟩
  · rw [List.mem_singleton, standsFor_iff_of_plain plain]
  · simp [standsFor_iff_of_wild wild, parsed]

theorem ofPatterns_cons_eq_ok_iff {pattern : Text} {paths : List Path} :
    ofPatterns files base (pattern :: patterns) = .ok paths ↔
      ∃ found more, ofPattern files base pattern = .ok found ∧ ofPatterns files base patterns = .ok more ∧
        paths = found ++ more := by
  rw [ofPatterns]
  cases ofPattern files base pattern <;> cases ofPatterns files base patterns <;> simp [eq_comm]

theorem mem_ofPatterns_iff {paths : List Path} (read : ofPatterns files base patterns = .ok paths) (path : Path) :
    path ∈ paths ↔ ∃ pattern ∈ patterns, StandsFor files base pattern path := by
  induction patterns generalizing paths with
  | nil =>
    cases read
    simp
  | cons pattern patterns ih =>
    obtain ⟨found, more, first, rest, rfl⟩ := ofPatterns_cons_eq_ok_iff.mp read
    rw [List.mem_append, mem_ofPattern_iff first, ih rest, List.exists_mem_cons_iff]

/-- Patterns are read together just when each can be read. -/
theorem exists_ofPatterns_iff : (∃ paths, ofPatterns files base patterns = .ok paths) ↔
    ∀ pattern ∈ patterns, ∃ found, ofPattern files base pattern = .ok found := by
  induction patterns with
  | nil => simp [ofPatterns]
  | cons pattern patterns ih =>
    rw [List.forall_mem_cons, ← ih, ofPatterns]
    cases ofPattern files base pattern <;> cases ofPatterns files base patterns <;> simp

/-- Patterns that are read together are in order each. -/
theorem exists_glob_of_ofPatterns {paths : List Path} (read : ofPatterns files base patterns = .ok paths)
    {pattern : Text} (listed : pattern ∈ patterns) (wild : Glob.isPattern pattern = true) :
    ∃ glob, Glob.Pattern.ofText (base.join ⟨pattern⟩).text = .ok glob := by
  obtain ⟨found, own⟩ := exists_ofPatterns_iff.mp ⟨paths, read⟩ pattern listed
  rcases ofPattern_eq_ok_iff.mp own with ⟨plain, _⟩ | ⟨_, glob, parsed, _⟩
  · cases plain.symm.trans wild
  · exact ⟨glob, parsed⟩

theorem collect_eq_ok_iff : collect files base patterns = .ok targets ↔
    ∃ paths, ofPatterns files base patterns = .ok paths ∧ targets = Ordered.ofList Path.order paths := by
  rw [collect]
  cases ofPatterns files base patterns <;> simp [eq_comm]

section
variable (collected : collect files base patterns = .ok targets)
include collected

/-- Every target is a path that some pattern stands for. -/
theorem standsFor_of_mem {target : Path} (member : target ∈ targets) :
    ∃ pattern ∈ patterns, StandsFor files base pattern target := by
  obtain ⟨paths, read, rfl⟩ := collect_eq_ok_iff.mp collected
  exact (mem_ofPatterns_iff read target).mp (Ordered.mem_of_mem_ofList member)

/-- Whatever a pattern stands for is a target in some spelling of the same components. -/
theorem exists_target {pattern : Text} (listed : pattern ∈ patterns) {path : Path}
    (stands : StandsFor files base pattern path) : ∃ target ∈ targets, target.components = path.components := by
  obtain ⟨paths, read, rfl⟩ := collect_eq_ok_iff.mp collected
  have member : path ∈ paths := (mem_ofPatterns_iff read path).mpr ⟨pattern, listed, stands⟩
  obtain ⟨target, kept, same⟩ : ∃ target ∈ Ordered.ofList Path.order paths, Path.order target path = .eq :=
    Ordered.exists_mem_ofList member
  exact ⟨target, kept, (Path.order_eq_iff _ _).mp same⟩

/-- No two targets have the same components. -/
theorem nodup_components : (targets.map (·.components)).Nodup := by
  obtain ⟨paths, _, rfl⟩ := collect_eq_ok_iff.mp collected
  refine List.pairwise_map.mpr ((Ordered.pairwise_lt_ofList paths).imp fun {a b} below same => ?_)
  rw [(Path.order_eq_iff a b).mpr same] at below
  cases below

end

theorem entry_file (files : FileSystem) (base target : Path) : (entry files base target).file = nameFrom base target := by
  rw [entry]
  split <;> rfl

theorem length_lint (files : FileSystem) (base : Path) (targets : List Path) :
    (lint files base targets).summary.files = targets.length := by
  simp [lint, Report.summary]

/-! ### Spellings -/

/-- Whether patterns stand for two paths that are the same but for a dot at the start of one. -/
def SpelledTwice (files : FileSystem) (base : Path) (patterns : List Text) : Prop :=
  ∃ pattern ∈ patterns, ∃ other ∈ patterns, ∃ a b, StandsFor files base pattern a ∧ StandsFor files base other b ∧
    a.startsHere = true ∧ b.startsHere = false ∧ a.dotless = b.dotless

theorem nodup_dotless_iff_not_spelledTwice (collected : collect files base patterns = .ok targets) :
    (targets.map (·.dotless)).Nodup ↔ ¬ SpelledTwice files base patterns := by
  have distinct := nodup_components collected
  rw [List.nodup_map_iff_inj_on distinct.of_map]
  constructor
  · rintro apart ⟨pattern, listed, other, alsoListed, a, b, stands, alsoStands, here, there, same⟩
    obtain ⟨x, inTargets, spelledX⟩ := exists_target collected listed stands
    obtain ⟨y, alsoInTargets, spelledY⟩ := exists_target collected alsoListed alsoStands
    obtain ⟨startsX, dotlessX⟩ := (Path.components_eq_iff x a).mp spelledX
    obtain ⟨startsY, dotlessY⟩ := (Path.components_eq_iff y b).mp spelledY
    have equal := apart x inTargets y alsoInTargets (by rw [dotlessX, dotlessY, same])
    rw [← equal, startsX, here] at startsY
    rw [there] at startsY
    cases startsY
  · intro once x inTargets y alsoInTargets same
    by_contra other
    have unlike : x.startsHere ≠ y.startsHere := fun starts =>
      other (List.inj_on_of_nodup_map distinct inTargets alsoInTargets ((Path.components_eq_iff x y).mpr ⟨starts, same⟩))
    obtain ⟨pattern, listed, standsX⟩ := standsFor_of_mem collected inTargets
    obtain ⟨another, alsoListed, standsY⟩ := standsFor_of_mem collected alsoInTargets
    -- one of the two starts with a dot, and the other one does not
    cases here : x.startsHere with
    | true =>
      have there : y.startsHere = false := by simpa [here] using unlike.symm
      exact once ⟨pattern, listed, another, alsoListed, x, y, standsX, standsY, here, there, same⟩
    | false =>
      have there : y.startsHere = true := by simpa [here] using unlike.symm
      exact once ⟨another, alsoListed, pattern, listed, y, x, standsY, standsX, there, here, same.symm⟩

/-- What matches a relative pattern below a relative base is led to by the components of the base, read as those of a
    pattern, and then by those of the pattern. -/
theorem leads_of_found {path : Path} {glob : Glob.Pattern} (relative : path.isAbsolute = false)
    (filled : base.text ≠ []) (ground : base.isAbsolute = false)
    (parsed : Glob.Pattern.ofText (base.join path).text = .ok glob) {other : Path} (found : other ∈ glob.files files) :
    ∃ lead rest, Glob.piecesOf base.openSegments = .ok lead ∧ Glob.piecesOf path.openSegments = .ok rest ∧
      Glob.SlashFree (lead ++ rest) ∧ Glob.Leads files (lead ++ rest) ⟨['.']⟩ other := by
  have side := (Glob.pieces_of_ofText parsed).1
  obtain ⟨lead, rest, inBase, inPath, pieces⟩ := Glob.pieces_of_join relative filled ground parsed
  obtain ⟨_, _, leads⟩ := (Glob.mem_files_iff files glob other).mp found
  rw [side, Path.isAbsolute_join relative filled, ground, if_neg Bool.false_ne_true] at leads
  exact ⟨lead, rest, inBase, inPath, pieces ▸ Glob.free_of_ofText parsed, pieces ▸ leads⟩

/-- The steps of what matches a relative pattern below a relative base are first such that the base, read as a
    pattern, stands for, and then such that the pattern stands for. -/
theorem covers_of_found {path : Path} {glob : Glob.Pattern} (relative : path.isAbsolute = false)
    (filled : base.text ≠ []) (ground : base.isAbsolute = false)
    (parsed : Glob.Pattern.ofText (base.join path).text = .ok glob) {other : Path} (found : other ∈ glob.files files) :
    other.isAbsolute = false ∧ ∃ lead rest first second, Glob.piecesOf base.openSegments = .ok lead ∧
      Glob.piecesOf path.openSegments = .ok rest ∧ Glob.Covers lead first ∧ Glob.Covers rest second ∧
      other.steps = first ++ second := by
  obtain ⟨lead, rest, inBase, inPath, free, leads⟩ := leads_of_found relative filled ground parsed found
  obtain ⟨side, covered, covers, steps⟩ := leads.covers free
  obtain ⟨first, second, rfl, inLead, inRest⟩ := covers.of_append
  exact ⟨side, lead, rest, first, second, inBase, inPath, inLead, inRest, steps⟩

/-- What a pattern below a base stands for is spelled with a dot in front only if the base is. -/
theorem startsHere_of_base (filled : base.text ≠ []) (there : base.startsHere = false) (undotted : Glob.Undotted base)
    {pattern : Text} {path : Path} (stands : StandsFor files base pattern path) : path.startsHere = false := by
  cases stands with
  | path =>
    cases absolute : Path.isAbsolute ⟨pattern⟩ with
    | true => rw [Path.join_of_isAbsolute base absolute, Path.startsHere_of_isAbsolute absolute]
    | false => rw [Path.startsHere_join absolute filled, there]
  | @found glob path _ parsed found =>
    have side := (Glob.pieces_of_ofText parsed).1
    have from_top (top : (base.join ⟨pattern⟩).isAbsolute = true) : path.startsHere = false :=
      Glob.startsHere_of_isAbsolute (Glob.free_of_ofText parsed) (side.trans top) found
    cases absolute : Path.isAbsolute ⟨pattern⟩ with
    | true => exact from_top (by rw [Path.join_of_isAbsolute base absolute, absolute])
    | false =>
      cases ground : base.isAbsolute with
      | true => exact from_top (by rw [Path.isAbsolute_join absolute filled, ground])
      | false =>
        -- the name that comes first in the base is followed first
        obtain ⟨lead, rest, inBase, _, free, leads⟩ := leads_of_found absolute filled ground parsed found
        have first := Path.head?_openSegments filled
        cases own : base.openSegments with
        | nil => exact absurd own (Path.openSegments_ne_nil filled)
        | cons segment segments =>
          have inside : segment ∈ base.segments := Path.mem_segments_of_mem_openSegments (by simp [own])
          rw [own] at inBase first
          have other : segment ≠ ['.'] := by
            rintro rfl
            simp [Path.startsHere, ← first] at there
          obtain ⟨tokens, pieces, read, _, rfl⟩ := Glob.piecesOf_cons_eq_ok_iff.mp inBase
          have piece : Glob.Piece.Of segment (.ofTokens tokens) := ⟨tokens, Glob.reads_of_tokensFrom read, rfl⟩
          refine leads.startsHere_of_first free (by decide) (by simp) ?_
          rintro _ ⟨⟩
          exact piece.undotted other (undotted segment inside)

/-- Below a base that starts with a dot, two spellings come of a path and a pattern that stand for the same file. -/
theorem spelledTwice_iff_of_startsHere (here : base.startsHere = true)
    (undotted : ∀ pattern ∈ patterns, Glob.isPattern pattern = true → Glob.Undotted (base.join ⟨pattern⟩)) :
    SpelledTwice files base patterns ↔ ∃ pattern ∈ patterns, Glob.isPattern pattern = false ∧
      Path.isAbsolute ⟨pattern⟩ = false ∧ ∃ other ∈ patterns, Glob.isPattern other = true ∧
        ∃ path, StandsFor files base other path ∧ path.dotless = (base.join ⟨pattern⟩).dotless := by
  have filled := Path.text_ne_nil_of_startsHere here
  constructor
  · rintro ⟨pattern, listed, other, alsoListed, a, b, stands, alsoStands, starts, there, same⟩
    cases stands with
    | found wild parsed found =>
      rw [Glob.startsHere_of_undotted parsed (undotted pattern listed wild) found] at starts
      cases starts
    | path plain =>
      have relative : Path.isAbsolute ⟨pattern⟩ = false := by
        cases absolute : Path.isAbsolute ⟨pattern⟩ with
        | false => rfl
        | true =>
          rw [Path.join_of_isAbsolute base absolute, Path.startsHere_of_isAbsolute absolute] at starts
          cases starts
      cases alsoStands with
      | found wild parsed found =>
        exact ⟨pattern, listed, plain, relative, other, alsoListed, wild, b, .found wild parsed found, same.symm⟩
      | path =>
        -- the other path is no relative one, as it would start with the dot of the base
        have side := Path.isAbsolute_eq_of_dotless same
        rw [Path.isAbsolute_of_startsHere starts] at side
        have alsoRelative : Path.isAbsolute ⟨other⟩ = false := by
          cases absolute : Path.isAbsolute ⟨other⟩ with
          | false => rfl
          | true =>
            rw [Path.join_of_isAbsolute base absolute, absolute] at side
            cases side
        rw [Path.startsHere_join alsoRelative filled, here] at there
        cases there
  · rintro ⟨pattern, listed, plain, relative, other, alsoListed, wild, path, stands, same⟩
    refine ⟨pattern, listed, other, alsoListed, _, path, .path plain, stands, ?_, ?_, same.symm⟩
    · rw [Path.startsHere_join relative filled, here]
    · obtain ⟨glob, parsed, found⟩ := (standsFor_iff_of_wild wild).mp stands
      exact Glob.startsHere_of_undotted parsed (undotted other alsoListed wild) found

/-- No two targets are the same but for dots just when the patterns do not stand for a path in two spellings. Without
    dotted wildcards it is so below a base that starts with a name, while below a base that starts with a dot it takes
    that no relative path is that of a match. A report counts each target. -/
theorem nodup_dotless_iff (collected : collect files base patterns = .ok targets) :
    ((targets.map (·.dotless)).Nodup ↔ ¬ SpelledTwice files base patterns) ∧
    (base.text ≠ [] → base.startsHere = false → Glob.Undotted base → (targets.map (·.dotless)).Nodup) ∧
    (base.startsHere = true →
      (∀ pattern ∈ patterns, Glob.isPattern pattern = true → Glob.Undotted (base.join ⟨pattern⟩)) →
      ((targets.map (·.dotless)).Nodup ↔
        ∀ pattern ∈ patterns, Glob.isPattern pattern = false → Path.isAbsolute ⟨pattern⟩ = false →
          ∀ other ∈ patterns, Glob.isPattern other = true → ∀ path, StandsFor files base other path →
            path.dotless ≠ (base.join ⟨pattern⟩).dotless)) ∧
    (lint files base targets).summary.files = targets.length := by
  have spelled := nodup_dotless_iff_not_spelledTwice collected
  refine ⟨spelled, fun filled there undotted => ?_, fun here undotted => ?_, length_lint files base targets⟩
  · refine spelled.mpr ?_
    rintro ⟨pattern, _, _, _, _, _, stands, _, starts, _⟩
    rw [startsHere_of_base filled there undotted stands] at starts
    cases starts
  · rw [spelled, spelledTwice_iff_of_startsHere here undotted]
    push Not
    rfl

/-- A path and a pattern below a named base stand for one file. -/
theorem nodup_dotless_iff_named_base :
    collect (.ofLocations [[⟨['x'], rfl⟩, ⟨['a'], rfl⟩]]) ⟨['x']⟩ [['a'], ['*']] = .ok [⟨"x/a".toList⟩] ∧
      (([⟨"x/a".toList⟩] : List Path).map (·.dotless)).Nodup :=
  have collected : collect (.ofLocations [[⟨['x'], rfl⟩, ⟨['a'], rfl⟩]]) ⟨['x']⟩ [['a'], ['*']] =
      .ok [⟨"x/a".toList⟩] := by cbv
  ⟨collected, (nodup_dotless_iff collected).2.1 (by decide) (by decide) (by decide)⟩

/-- Below the current directory, the path of a file and a pattern that it matches are two targets, and both are
    reported by the same name. -/
theorem spelledTwice_below_here :
    collect (.ofLocations [[⟨"a.strudel".toList, rfl⟩]]) ⟨['.']⟩ ["a.strudel".toList, "*.strudel".toList] =
      .ok [⟨"./a.strudel".toList⟩, ⟨"a.strudel".toList⟩] ∧
    ¬ (([⟨"./a.strudel".toList⟩, ⟨"a.strudel".toList⟩] : List Path).map (·.dotless)).Nodup ∧
    (lint (.ofLocations [[⟨"a.strudel".toList, rfl⟩]]) ⟨['.']⟩
      [⟨"./a.strudel".toList⟩, ⟨"a.strudel".toList⟩]).files.map (·.file) =
        ["a.strudel".toList, "a.strudel".toList] := by
  exact ⟨by cbv, by decide, by cbv⟩

end Targets
end PatternLint
