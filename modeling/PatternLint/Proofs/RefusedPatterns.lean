import PatternLint.Proofs.TargetSets

/-!
# Patterns that are refused

A component of a pattern is in order if it is two stars, or made of characters, single stars and closed sets
(`Glob.InOrder`); if not, there is a place in it from which no part goes on (`Glob.Broken`). A pattern is accepted just
when all its components are in order (`Glob.exists_ofText_iff`), so whether it is refused below a base hangs on the joined
path alone. Collecting fails at the first pattern that is refused, whatever files there are (`Targets.refused_exact`).
-/
namespace PatternLint

namespace Glob

/-! ### Components in order -/

/-- What stands between the brackets of a set: a mark if the set is negated, a first member, which may be any character,
    and further ones that are no closing bracket. -/
inductive SetBody : Text → Prop
  | plain {first : Char} {more : Text} : first ≠ '!' → ']' ∉ more → SetBody (first :: more)
  | negated {first : Char} {more : Text} : ']' ∉ more → SetBody ('!' :: first :: more)

/-- A text made of characters, single stars and closed sets. -/
inductive Parts : Text → Prop
  | nil : Parts []
  | char {c : Char} {text : Text} : c ≠ '*' → c ≠ '[' → Parts text → Parts (c :: text)
  | star {text : Text} : text.head? ≠ some '*' → Parts text → Parts ('*' :: text)
  | set {body text : Text} : SetBody body → Parts text → Parts ('[' :: (body ++ ']' :: text))

/-- A component of a pattern that is in order: any directories, or parts of a name. -/
def InOrder (component : Text) : Prop := component = ['*', '*'] ∨ Parts component

theorem parts_char_iff {c : Char} (star : c ≠ '*') (set : c ≠ '[') (text : Text) : Parts (c :: text) ↔ Parts text := by
  constructor
  · intro parts
    cases parts with
    | char _ _ rest => exact rest
    | star => exact absurd rfl star
    | set => exact absurd rfl set
  · exact .char star set

theorem parts_star_iff (text : Text) : Parts ('*' :: text) ↔ text.head? ≠ some '*' ∧ Parts text := by
  constructor
  · intro parts
    cases parts with
    | char star => exact absurd rfl star
    | star single rest => exact ⟨single, rest⟩
  · rintro ⟨single, rest⟩
    exact .star single rest

theorem parts_set_iff (text : Text) :
    Parts ('[' :: text) ↔ ∃ body rest, SetBody body ∧ text = body ++ ']' :: rest ∧ Parts rest := by
  constructor
  · intro parts
    cases parts with
    | char _ set => exact absurd rfl set
    | set closed rest => exact ⟨_, _, closed, rfl, rest⟩
  · rintro ⟨body, rest, closed, rfl, parts⟩
    exact .set closed parts

/-! ### Sets -/

theorem setFrom?_eq_some_iff {negated : Bool} {first : Char} {text after : Text} {token : Token} :
    setFrom? negated first text = some (token, after) ↔
      ∃ more, ']' ∉ more ∧ text = more ++ ']' :: after ∧ token = .set negated (membersOf (first :: more)) := by
  have whole := List.takeWhile_append_dropWhile (p := (· ≠ ']')) (l := text)
  constructor
  · intro closed
    rw [setFrom?] at closed
    cases dropped : text.dropWhile (· ≠ ']') with
    | nil =>
      rw [dropped] at closed
      cases closed
    | cons bracket rest =>
      have stop : bracket = ']' := by
        have head := List.head?_dropWhile_not (· ≠ ']') text
        rw [dropped] at head
        simpa using head
      rw [dropped] at closed whole
      cases closed
      rw [stop] at whole
      refine ⟨_, fun member => ?_, whole.symm, rfl⟩
      simpa using List.mem_takeWhile_imp member
  · rintro ⟨more, free, rfl, rfl⟩
    obtain ⟨taken, dropped⟩ := @Text.takeWhile_append_of_stop (· ≠ ']') more (']' :: after)
      (fun c member => by simpa using fun same : c = ']' => free (same ▸ member)) (by simp)
    rw [setFrom?, dropped, taken]

theorem exists_set?_iff {text after : Text} :
    (∃ token, set? text = some (token, after)) ↔ ∃ body, SetBody body ∧ text = body ++ ']' :: after := by
  constructor
  · rintro ⟨token, closed⟩
    cases text with
    | nil => cases closed
    | cons c text =>
      by_cases bang : c = '!'
      · subst bang
        cases text with
        | nil => cases closed
        | cons first text =>
          have behind : setFrom? true first text = some (token, after) := closed
          obtain ⟨more, free, rfl, _⟩ := setFrom?_eq_some_iff.mp behind
          exact ⟨_, .negated free, rfl⟩
      · rw [set?_cons bang] at closed
        obtain ⟨more, free, rfl, _⟩ := setFrom?_eq_some_iff.mp closed
        exact ⟨_, .plain bang free, rfl⟩
  · rintro ⟨body, closed, rfl⟩
    cases closed with
    | plain other free =>
      rw [List.cons_append, set?_cons other]
      exact ⟨_, setFrom?_eq_some_iff.mpr ⟨_, free, rfl, rfl⟩⟩
    | @negated first more free =>
      have behind : setFrom? true first (more ++ ']' :: after) =
        some (.set true (membersOf (first :: more)), after) := setFrom?_eq_some_iff.mpr ⟨_, free, rfl, rfl⟩
      exact ⟨_, behind⟩

/-- A set is closed at one place. -/
theorem SetBody.rest_unique {body other rest more : Text} (closed : SetBody body) (alsoClosed : SetBody other)
    (same : body ++ ']' :: rest = other ++ ']' :: more) : rest = more := by
  obtain ⟨token, read⟩ := exists_set?_iff.mpr ⟨body, closed, rfl⟩
  obtain ⟨another, alsoRead⟩ := exists_set?_iff.mpr ⟨other, alsoClosed, rfl⟩
  rw [same] at read
  cases read.symm.trans alsoRead
  rfl

theorem SetBody.parts_iff {body : Text} (closed : SetBody body) (text : Text) :
    Parts ('[' :: (body ++ ']' :: text)) ↔ Parts text := by
  rw [parts_set_iff]
  constructor
  · rintro ⟨other, rest, alsoClosed, same, parts⟩
    rwa [closed.rest_unique alsoClosed same]
  · exact fun parts => ⟨body, text, closed, rfl, parts⟩

/-! ### Components that are broken -/

theorem not_parts_stars (text : Text) : ¬ Parts ('*' :: '*' :: text) := by simp [parts_star_iff]

/-- What stands behind parts of a name is made of parts if the whole is. -/
theorem Parts.of_append {before rest : Text} (lead : Parts before) (parts : Parts (before ++ rest)) : Parts rest := by
  induction lead with
  | nil => exact parts
  | char star set _ ih =>
    rw [List.cons_append, parts_char_iff star set] at parts
    exact ih parts
  | star _ _ ih =>
    rw [List.cons_append, parts_star_iff] at parts
    exact ih parts.2
  | @set body text closed _ ih =>
    rw [List.cons_append, List.append_assoc, List.cons_append, closed.parts_iff] at parts
    exact ih parts

/-- A text that no part of a name starts: two stars in a row, or a set that is not closed. -/
inductive Stuck : Text → Prop
  | stars (after : Text) : Stuck ('*' :: '*' :: after)
  | openSet {after : Text} : (∀ body rest, SetBody body → after ≠ body ++ ']' :: rest) → Stuck ('[' :: after)

theorem Stuck.not_parts {text : Text} (stuck : Stuck text) : ¬ Parts text := by
  intro parts
  cases stuck with
  | stars after => exact not_parts_stars after parts
  | openSet unclosed =>
    obtain ⟨body, rest, closed, own, -⟩ := (parts_set_iff _).mp parts
    exact unclosed body rest closed own

/-- A text that is not made of parts is so up to a place where none starts. -/
theorem exists_stuck {text : Text} (apart : ¬ Parts text) :
    ∃ before rest, text = before ++ rest ∧ Parts before ∧ Stuck rest := by
  -- a set takes several characters off the front, so the induction is on the length
  induction length : text.length using Nat.strong_induction_on generalizing text with
  | _ n ih =>
    subst length
    cases text with
    | nil => exact absurd .nil apart
    | cons c text =>
      by_cases star : c = '*'
      · subst star
        by_cases double : text.head? = some '*'
        · obtain ⟨after, rfl⟩ := List.head?_eq_some_iff.mp double
          exact ⟨[], _, rfl, .nil, .stars after⟩
        · obtain ⟨before, rest, rfl, lead, stuck⟩ := ih text.length (by simp) (mt (.star double) apart) rfl
          have single : before.head? ≠ some '*' := by
            intro starred
            obtain ⟨others, rfl⟩ := List.head?_eq_some_iff.mp starred
            exact double rfl
          exact ⟨'*' :: before, rest, rfl, .star single lead, stuck⟩
      by_cases set : c = '['
      · subst set
        by_cases closed : ∃ body rest, SetBody body ∧ text = body ++ ']' :: rest
        · obtain ⟨body, behind, closed, rfl⟩ := closed
          obtain ⟨before, rest, rfl, lead, stuck⟩ :=
            ih behind.length (by simp; omega) (mt (.set closed) apart) rfl
          exact ⟨'[' :: (body ++ ']' :: before), rest, by simp, .set closed lead, stuck⟩
        · refine ⟨[], _, rfl, .nil, .openSet fun body rest own same => ?_⟩
          exact closed ⟨body, rest, own, same⟩
      · obtain ⟨before, rest, rfl, lead, stuck⟩ := ih text.length (by simp) (mt (.char star set) apart) rfl
        exact ⟨c :: before, rest, rfl, .char star set lead, stuck⟩

/-- A component that is not in order: it is not two stars, and it goes on in a way that no part does. -/
def Broken (component : Text) : Prop :=
  component ≠ ['*', '*'] ∧ ∃ before rest, component = before ++ rest ∧ Parts before ∧ Stuck rest

theorem not_inOrder_iff (component : Text) : ¬ InOrder component ↔ Broken component := by
  rw [InOrder, not_or, Broken]
  refine and_congr_right fun _ => ?_
  constructor
  · exact exists_stuck
  · rintro ⟨before, rest, rfl, lead, stuck⟩ parts
    exact stuck.not_parts (lead.of_append parts)

/-! ### What is accepted -/

/-- A text without slashes is accepted if it is made of parts, or is two stars at the start of a component. -/
theorem isOk_tokensFrom_iff {text : Text} (free : '/' ∉ text) (position : Nat) (last : Option Char) :
    (tokensFrom position last text).isOk = true ↔
      Parts text ∨ text = ['*', '*'] ∧ last.all (· = '/') = true := by
  fun_induction tokensFrom position last text
  case case1 => simp [Except.isOk, Except.toBool, Parts.nil]
  case case2 text ih =>
    rw [isOk_prepend, ih (List.not_mem_of_not_mem_cons free), parts_char_iff (by decide) (by decide)]
    simp
  case case3 => simp [Except.isOk, Except.toBool, not_parts_stars]
  case case4 stars _ => simp [Except.isOk, Except.toBool, stars]
  case case5 => simp at free
  case case6 text _ _ some_text _ =>
    have more : text ≠ [] := some_text
    simp [Except.isOk, Except.toBool, not_parts_stars, more]
  case case7 text _ inside => simp [Except.isOk, Except.toBool, not_parts_stars, inside]
  case case8 position last text _ single ih =>
    have apart : text.head? ≠ some '*' := by
      intro starred
      obtain ⟨rest, rfl⟩ := List.head?_eq_some_iff.mp starred
      exact single rest rfl
    have alone : '*' :: text ≠ ['*', '*'] := by
      intro same
      exact single [] (List.cons.inj same).2
    rw [isOk_prepend, ih (List.not_mem_of_not_mem_cons free), parts_star_iff]
    simp [apart, alone]
  case case9 position last text opened =>
    have unclosed : ¬ Parts ('[' :: text) := by
      rw [parts_set_iff]
      rintro ⟨body, rest, closed, own, -⟩
      obtain ⟨token, read⟩ := exists_set?_iff.mpr ⟨body, closed, own⟩
      rw [opened] at read
      cases read
    simp [Except.isOk, Except.toBool, unclosed]
  case case10 position last text token after read ih =>
    obtain ⟨body, closed, rfl⟩ := exists_set?_iff.mp ⟨token, read⟩
    have behind : '/' ∉ after := fun member => free (by simp [member])
    rw [isOk_prepend, ih behind, closed.parts_iff]
    simp
  case case11 c text _ _ _ star set ih =>
    have other : c ≠ '/' := by
      rintro rfl
      simp at free
    rw [isOk_prepend, ih (List.not_mem_of_not_mem_cons free), parts_char_iff star set]
    have name : c :: text ≠ ['*', '*'] := by
      intro same
      exact star (List.cons.inj same).1
    simp [other, name]

theorem isOk_tokens_iff {component : Text} (free : '/' ∉ component) :
    (tokens component).isOk = true ↔ InOrder component := by
  rw [tokens, isOk_tokensFrom_iff free, InOrder, or_comm]
  simp

theorem exists_piecesOf_iff {components : List Text} (free : ∀ component ∈ components, '/' ∉ component) :
    (∃ pieces, piecesOf components = .ok pieces) ↔ ∀ component ∈ components, InOrder component := by
  induction components with
  | nil => simp [piecesOf]
  | cons component components ih =>
    obtain ⟨own, others⟩ := List.forall_mem_cons.mp free
    rw [List.forall_mem_cons, ← isOk_tokens_iff own, ← ih others]
    simp only [piecesOf_cons_eq_ok_iff]
    constructor
    · rintro ⟨_, found, pieces, read, onward, -⟩
      rw [read]
      exact ⟨rfl, pieces, onward⟩
    · rintro ⟨ok, pieces, onward⟩
      cases read : tokens component with
      | error fault =>
        rw [read] at ok
        cases ok
      | ok found => exact ⟨_, found, pieces, rfl, onward, rfl⟩

/-- The components that a pattern is read from are the pieces of its path, but for empty ones. -/
theorem mem_segments_iff {text component : Text} (filled : component ≠ []) :
    component ∈ Path.segments ⟨text⟩ ↔
      component ∈ Path.openSegments ⟨if Path.isAbsolute ⟨text⟩ then text.tail else text⟩ := by
  have opened (path : Path) : component ∈ path.segments ↔ component ∈ path.openSegments := by
    rcases path.segments_eq_or with own | own
    · rw [own]
    · rw [own, List.mem_append, List.mem_singleton, or_iff_left filled]
  rw [← opened]
  split
  · next absolute =>
    obtain ⟨rest, ⟨⟩⟩ := Path.exists_of_isAbsolute absolute
    rw [Path.segments_top, List.mem_cons, or_iff_right filled]
    rfl
  · rfl

/-- A pattern that can be cut into tokens is accepted if its components are read as pieces. -/
theorem exists_ofText_of_pieces {text : Text} {found : List Token} {pieces : List Piece} (whole : tokens text = .ok found)
    (read : piecesOf (Path.openSegments ⟨if Path.isAbsolute ⟨text⟩ then text.tail else text⟩) = .ok pieces) :
    ∃ glob, Pattern.ofText text = .ok glob := by
  simp only [Path.openSegments, Path.segments, Path.isAbsolute, decide_eq_true_eq] at read
  rw [Pattern.ofText, whole]
  dsimp only
  rw [Text.list_splitOn_eq, read]
  exact ⟨_, rfl⟩

/-- A pattern is accepted just when all its components are in order. -/
theorem exists_ofText_iff (text : Text) :
    (∃ glob, Pattern.ofText text = .ok glob) ↔ ∀ component ∈ Path.segments ⟨text⟩, InOrder component := by
  have free (path : Path) : ∀ component ∈ path.segments, '/' ∉ component := fun _ => Path.not_mem_of_mem_segments
  have opened := @exists_piecesOf_iff (Path.openSegments ⟨if Path.isAbsolute ⟨text⟩ then text.tail else text⟩)
    fun component member => free _ component (Path.mem_segments_of_mem_openSegments member)
  constructor
  · rintro ⟨glob, read⟩ component member
    obtain ⟨-, -, pieces⟩ := pieces_of_ofText read
    by_cases filled : component = []
    · rw [filled]
      exact .inr .nil
    · exact opened.mp ⟨_, pieces⟩ component ((mem_segments_iff filled).mp member)
  · intro ordered
    obtain ⟨pieces, read⟩ := (exists_piecesOf_iff (free ⟨text⟩)).mpr ordered
    have whole := @isOk_tokens_intercalate _ _ read (Path.segments_ne_nil ⟨text⟩) 0 none rfl
    rw [Path.intercalate_segments, ← tokens] at whole
    obtain ⟨own, found⟩ := opened.mpr fun component member => by
      by_cases filled : component = []
      · rw [filled]
        exact .inr .nil
      · exact ordered component ((mem_segments_iff filled).mpr member)
    cases checked : tokens text with
    | error fault =>
      rw [checked] at whole
      cases whole
    | ok _ => exact exists_ofText_of_pieces checked found

end Glob

namespace Targets

variable {files : FileSystem} {base : Path} {patterns : List Text} {targets : List Path}

/-! ### The first pattern that is refused -/

/-- Whether a pattern is refused below a base: it holds a wildcard, and the joined path a component that is broken. -/
def IsRefused (base : Path) (pattern : Text) : Prop :=
  (∃ c ∈ pattern, c = '*' ∨ c = '?' ∨ c = '[') ∧
    ∃ component ∈ (base.join ⟨pattern⟩).segments, Glob.Broken component

theorem isRefused_iff (pattern : Text) : IsRefused base pattern ↔
    Glob.isPattern pattern = true ∧ ∃ fault, Glob.Pattern.ofText (base.join ⟨pattern⟩).text = .error fault := by
  have accepted := Glob.exists_ofText_iff (base.join ⟨pattern⟩).text
  simp only [IsRefused, ← Glob.isPattern_iff, ← Glob.not_inOrder_iff]
  refine and_congr_right fun _ => ?_
  cases read : Glob.Pattern.ofText (base.join ⟨pattern⟩).text with
  | error fault =>
    rw [read] at accepted
    simpa using accepted
  | ok glob =>
    rw [read] at accepted
    simpa using accepted

theorem ofPattern_eq_error_iff {pattern : Text} {bad : BadPattern} :
    ofPattern files base pattern = .error bad ↔ pattern = bad.pattern ∧ Glob.isPattern pattern = true ∧
      Glob.Pattern.ofText (base.join ⟨pattern⟩).text = .error bad.error := by
  obtain ⟨own, fault⟩ := bad
  rw [ofPattern]
  cases wild : Glob.isPattern pattern with
  | false => simp
  | true => cases Glob.Pattern.ofText (base.join ⟨pattern⟩).text <;> simp

theorem exists_ofPattern_iff (pattern : Text) :
    (∃ found, ofPattern files base pattern = .ok found) ↔ ¬ IsRefused base pattern := by
  rw [isRefused_iff, ofPattern]
  cases Glob.isPattern pattern with
  | false => simp
  | true => cases Glob.Pattern.ofText (base.join ⟨pattern⟩).text <;> simp

instance (base : Path) : DecidablePred (IsRefused base) := fun pattern =>
  decidable_of_iff ((ofPattern ⟨[], []⟩ base pattern).toOption = none) <| by
    rw [← not_iff_not, ← exists_ofPattern_iff]
    cases ofPattern ⟨[], []⟩ base pattern <;> simp [Except.toOption]

/-- Reading patterns fails at the first that is refused, with what is wrong with it. -/
theorem ofPatterns_eq_error_iff {bad : BadPattern} : ofPatterns files base patterns = .error bad ↔
    patterns.find? (IsRefused base) = some bad.pattern ∧
      Glob.Pattern.ofText (base.join ⟨bad.pattern⟩).text = .error bad.error := by
  induction patterns with
  | nil => simp [ofPatterns]
  | cons pattern patterns ih =>
    rw [ofPatterns]
    by_cases refused : IsRefused base pattern
    · rw [List.find?_cons_of_pos (by simpa using refused)]
      obtain ⟨wild, fault, read⟩ := (isRefused_iff pattern).mp refused
      obtain ⟨own, other⟩ := bad
      have first : ofPattern files base pattern = .error ⟨pattern, fault⟩ :=
        ofPattern_eq_error_iff.mpr ⟨rfl, wild, read⟩
      rw [first]
      constructor
      · rintro ⟨⟩
        exact ⟨rfl, read⟩
      · rintro ⟨⟨⟩, alsoRead⟩
        cases read.symm.trans alsoRead
        rfl
    · rw [List.find?_cons_of_neg (by simpa using refused), ← ih]
      obtain ⟨found, first⟩ := (@exists_ofPattern_iff files base pattern).mpr refused
      rw [first]
      cases ofPatterns files base patterns <;> simp

theorem collect_eq_error_iff {bad : BadPattern} : collect files base patterns = .error bad ↔
    patterns.find? (IsRefused base) = some bad.pattern ∧
      Glob.Pattern.ofText (base.join ⟨bad.pattern⟩).text = .error bad.error := by
  rw [← @ofPatterns_eq_error_iff files, collect]
  cases ofPatterns files base patterns <;> simp

theorem isRefused_of_find? {pattern : Text} (first : patterns.find? (IsRefused base) = some pattern) :
    IsRefused base pattern := of_decide_eq_true (List.find?_some (p := fun other => decide (IsRefused base other)) first)

theorem exists_error_iff :
    (∃ bad, collect files base patterns = .error bad) ↔ ∃ pattern ∈ patterns, IsRefused base pattern := by
  constructor
  · rintro ⟨bad, failed⟩
    have first := (collect_eq_error_iff.mp failed).1
    exact ⟨bad.pattern, List.mem_of_find?_eq_some first, isRefused_of_find? first⟩
  · rintro ⟨pattern, listed, refused⟩
    obtain ⟨blamed, first⟩ : ∃ blamed, patterns.find? (IsRefused base) = some blamed :=
      Option.isSome_iff_exists.mp (List.find?_isSome.mpr ⟨pattern, listed, decide_eq_true refused⟩)
    obtain ⟨-, fault, read⟩ := (isRefused_iff blamed).mp (isRefused_of_find? first)
    exact ⟨⟨blamed, fault⟩, collect_eq_error_iff.mpr ⟨first, read⟩⟩

/-- Collecting fails just when some pattern is refused, and there are targets just when none is. What fails it is the first
    pattern of the list that is refused, as it is written, with what is wrong with the path that it is joined to. So it
    fails alike in every tree, and with every list that has the same refused patterns in the same order, whatever other
    patterns stand between them. Refused is what holds a wildcard and is no pattern when joined to the base. -/
theorem refused_exact (base : Path) (patterns : List Text) :
    (∀ pattern, IsRefused base pattern ↔ Glob.isPattern pattern = true ∧
      ∃ fault, Glob.Pattern.ofText (base.join ⟨pattern⟩).text = .error fault) ∧
    (∀ files, ((∃ bad, collect files base patterns = .error bad) ↔ ∃ pattern ∈ patterns, IsRefused base pattern) ∧
      ((∃ targets, collect files base patterns = .ok targets) ↔ ∀ pattern ∈ patterns, ¬ IsRefused base pattern)) ∧
    (∀ files bad, collect files base patterns = .error bad ↔
      (∃ before after, patterns = before ++ bad.pattern :: after ∧ IsRefused base bad.pattern ∧
        ∀ pattern ∈ before, ¬ IsRefused base pattern) ∧
      Glob.Pattern.ofText (base.join ⟨bad.pattern⟩).text = .error bad.error) ∧
    (∀ others, others.filter (IsRefused base) = patterns.filter (IsRefused base) → ∀ files others' bad,
      collect others' base others = .error bad ↔ collect files base patterns = .error bad) := by
  refine ⟨isRefused_iff, fun files => ⟨exists_error_iff, ?_⟩, fun files bad => ?_, fun others same files other bad => ?_⟩
  · rw [exists_collected_iff]
    simp only [exists_ofPattern_iff]
  · rw [collect_eq_error_iff, List.find?_eq_some_iff_append]
    simp [and_left_comm]
  · rw [collect_eq_error_iff, collect_eq_error_iff, ← List.head?_filter, ← List.head?_filter, same]

/-- Below a base with an open bracket: a pattern that closes it, as a set does not reach over a slash. -/
theorem refused_exact_open_base :
    collect (.ofLocations []) ⟨['[']⟩ [[']'], "*]".toList, "**".toList] = .error ⟨"*]".toList, ⟨0, .openSet⟩⟩ ∧
    collect (.ofLocations [[⟨['a'], rfl⟩]]) ⟨['[']⟩ [['a'], "*]".toList, "/*".toList, "**".toList] =
      .error ⟨"*]".toList, ⟨0, .openSet⟩⟩ := by
  have failed : collect (.ofLocations []) ⟨['[']⟩ [[']'], "*]".toList, "**".toList] =
    .error ⟨"*]".toList, ⟨0, .openSet⟩⟩ := by decide +kernel
  obtain ⟨-, -, -, alike⟩ := refused_exact ⟨['[']⟩ [[']'], "*]".toList, "**".toList]
  have same : [['a'], "*]".toList, "/*".toList, "**".toList].filter (IsRefused ⟨['[']⟩) =
    [[']'], "*]".toList, "**".toList].filter (IsRefused ⟨['[']⟩) := by decide +kernel
  exact ⟨failed, (alike _ same _ _ _).mpr failed⟩

end Targets
end PatternLint
