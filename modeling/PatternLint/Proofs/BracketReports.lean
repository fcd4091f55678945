import Mathlib.Algebra.Group.Int.Defs
import Mathlib.Algebra.Group.Nat.Defs
import PatternLint.Proofs.BracketCount
import PatternLint.Line

/-!
# Reports about brackets

Each kind of brackets is judged on its own, by how often it is opened and closed in the code of all lines (`Brackets.Told`).
So neither the order of the lines nor what the comments say plays a part, and the depths of two sources add up when they
are joined by a line break (`Brackets.counted_exact`). At no point of the scan a depth is larger than the source is long.
-/
namespace PatternLint.Brackets

/-! ### What is told of a kind of brackets -/

/-- The error about a kind of brackets of which some closing ones are missing or too many. -/
def complaint (bracket : Bracket) (imbalance : Imbalance) (count : Nat) : Diagnostic :=
  ⟨1, 1, "Unbalanced ".toList ++ bracket.name ++ ": ".toList ++ imbalance.name ++ ' ' :: Text.ofNat count ++
    " closing \"".toList ++ [bracket.closer, '"'], .error⟩

/-- What is told of a kind of brackets. -/
inductive Told (source : Text) (bracket : Bracket) : Option Diagnostic → Prop
  | balanced {codes : List Text} : List.Forall₂ CodeOf source.lines codes →
      codes.flatten.count bracket.opener = codes.flatten.count bracket.closer → Told source bracket none
  | missing {codes : List Text} {count : Nat} : List.Forall₂ CodeOf source.lines codes → 0 < count →
      codes.flatten.count bracket.opener = codes.flatten.count bracket.closer + count →
      Told source bracket (some (complaint bracket .missing count))
  | extra {codes : List Text} {count : Nat} : List.Forall₂ CodeOf source.lines codes → 0 < count →
      codes.flatten.count bracket.closer = codes.flatten.count bracket.opener + count →
      Told source bracket (some (complaint bracket .extra count))

/-- The diagnostic about a kind of brackets, by its excess. -/
def verdict (bracket : Bracket) (excess : Int) : Option Diagnostic :=
  if excess = 0 then none
  else some (complaint bracket (if 0 < excess then .missing else .extra) excess.natAbs)

theorem diagnostics_eq (source : Text) :
    (findings source).map (·.diagnostic) = Bracket.all.filterMap fun bracket => verdict bracket (excess bracket (code source)) := by
  rw [findings, List.map_filterMap]
  congr 1
  funext bracket
  rw [get_depthsAtEnd, verdict]
  dsimp only
  by_cases level : excess bracket (code source) = 0
  · rw [if_pos level, if_pos level, Option.map_none]
  · rw [if_neg level, if_neg level, Option.map_some]
    rfl

theorem told_verdict (source : Text) (bracket : Bracket) :
    Told source bracket (verdict bracket (excess bracket (code source))) := by
  obtain ⟨codes, ofLines, whole⟩ : ∃ codes, List.Forall₂ CodeOf source.lines codes ∧ codes.flatten = code source :=
    ⟨_, forall₂_codeOf_iff.mpr rfl, rfl⟩
  rw [verdict, excess, ← whole]
  split
  · next level => exact .balanced ofLines (by omega)
  · next uneven =>
    split
    · next more => exact .missing ofLines (Int.natAbs_pos.mpr uneven) (by omega)
    · next fewer => exact .extra ofLines (Int.natAbs_pos.mpr uneven) (by omega)

theorem Told.eq_verdict {source : Text} {bracket : Bracket} {outcome : Option Diagnostic}
    (told : Told source bracket outcome) : verdict bracket (excess bracket (code source)) = outcome := by
  cases told with
  | balanced ofLines level =>
    rw [forall₂_codeOf_iff.mp ofLines, ← code] at level
    simp [verdict, excess, level]
  | @missing _ count ofLines some_more more =>
    rw [forall₂_codeOf_iff.mp ofLines, ← code] at more
    have difference : excess bracket (code source) = count := by
      rw [excess, more]
      omega
    rw [verdict, difference, if_neg (by omega), if_pos (by omega), Int.natAbs_natCast]
  | @extra _ count ofLines some_more more =>
    rw [forall₂_codeOf_iff.mp ofLines, ← code] at more
    have difference : excess bracket (code source) = -count := by
      rw [excess, more]
      omega
    have negative : ¬ (0 : Int) < -count := by omega
    rw [verdict, difference, if_neg (by omega), if_neg negative, Int.natAbs_neg, Int.natAbs_natCast]

/-! ### Comments -/

/-- A line, and what it becomes when all behind its first comment mark is replaced. -/
inductive Recommented : Text → Text → Prop
  | kept (line : Text) : Recommented line line
  | replaced {code comment other : Text} : CodeOf (code ++ commentMark ++ comment) code →
      Recommented (code ++ commentMark ++ comment) (code ++ commentMark ++ other)

theorem codeOf_replaced {code comment : Text} (ofLine : CodeOf (code ++ commentMark ++ comment) code) (other : Text) :
    CodeOf (code ++ commentMark ++ other) code where
  starts := (List.prefix_append code commentMark).trans (List.prefix_append _ other)
  ends := .inr (List.prefix_append _ other)
  first before starts := by
    by_contra shorter
    -- an earlier mark would end at most at the first slash of this one, and so be in the line as it was
    have within : before ++ commentMark <+: code ++ commentMark :=
      List.prefix_of_prefix_length_le starts (List.prefix_append _ other) (by simp; omega)
    exact shorter (ofLine.first before (within.trans (List.prefix_append _ comment)))

theorem Recommented.beforeComment_eq {line other : Text} (replaced : Recommented line other) :
    beforeComment other = beforeComment line := by
  cases replaced with
  | kept => rfl
  | replaced ofLine => rw [← codeOf_iff.mp ofLine, ← codeOf_iff.mp (codeOf_replaced ofLine _)]

theorem code_of_recommented {source other : Text} (replaced : List.Forall₂ Recommented source.lines other.lines) :
    code other = code source := by
  have same : ∀ {lines others : List Text}, List.Forall₂ Recommented lines others →
      others.map beforeComment = lines.map beforeComment := by
    intro lines others related
    induction related with
    | nil => rfl
    | cons one _ ih => rw [List.map_cons, List.map_cons, one.beforeComment_eq, ih]
  rw [code, code, same replaced]

/-! ### Orders, joined sources, sizes -/

theorem excess_of_perm {source other : Text} (reordered : source.lines.Perm other.lines) (bracket : Bracket) :
    excess bracket (code other) = excess bracket (code source) := by
  have same : (code other).Perm (code source) := (reordered.symm.map beforeComment).flatten
  rw [excess, excess, same.count_eq, same.count_eq]

theorem get_depthsAtEnd_append_break (a b : Text) (bracket : Bracket) :
    (depthsAtEnd (a ++ '\n' :: b)).get bracket = (depthsAtEnd a).get bracket + (depthsAtEnd b).get bracket := by
  simp only [get_depthsAtEnd, code_append_break, excess_append]

theorem natAbs_excess_le (bracket : Bracket) (text : Text) : (excess bracket text).natAbs ≤ text.length := by
  have opened := List.count_le_length (a := bracket.opener) (l := text)
  have closed := List.count_le_length (a := bracket.closer) (l := text)
  rw [excess]
  omega

theorem code_sublist (source : Text) : (code source).Sublist source := by
  have ofLines (lines : List Text) : (lines.map beforeComment).flatten.Sublist lines.flatten := by
    induction lines with
    | nil => exact List.Sublist.refl _
    | cons line lines ih =>
      rw [List.map_cons, List.flatten_cons, List.flatten_cons]
      exact (codeOf_beforeComment line).starts.sublist.append ih
  exact (ofLines source.lines).trans (Text.flatten_lines_sublist source)

/-- At no point of the scan a depth is larger than the source is long. -/
theorem natAbs_get_foldl_le {source read : Text} (starts : read <+: code source) (bracket : Bracket) :
    ((read.foldl Depths.step {}).get bracket).natAbs ≤ Text.byteLength source := by
  calc ((read.foldl Depths.step {}).get bracket).natAbs = (excess bracket read).natAbs := by rw [get_foldl_start]
    _ ≤ read.length := natAbs_excess_le bracket read
    _ ≤ (code source).length := starts.length_le
    _ ≤ source.length := (code_sublist source).length_le
    _ ≤ Text.byteLength source := Text.length_le_byteLength source

/-- For each kind of brackets there is an error just when it is opened and closed a different number of times in the code,
    and it tells the difference. The findings stay the same when the lines of the source are reordered and when all behind
    the first comment marks of lines is replaced, and depths add up when sources are joined by a line break. One scan over
    the code gives the depths, and a source of less than `2 ^ 63` bytes keeps them in a signed word of 64 bits
    throughout. -/
theorem counted_exact (source : Text) :
    (∃ told : Bracket → Option Diagnostic,
      (∀ bracket outcome, Told source bracket outcome ↔ told bracket = outcome) ∧
      (findings source).map (·.diagnostic) = Bracket.all.filterMap told) ∧
    (∀ other : Text, source.lines.Perm other.lines → findings other = findings source) ∧
    (∀ other : Text, List.Forall₂ Recommented source.lines other.lines → findings other = findings source) ∧
    (∀ other bracket, (depthsAtEnd (source ++ '\n' :: other)).get bracket =
      (depthsAtEnd source).get bracket + (depthsAtEnd other).get bracket) ∧
    depthsAtEnd source = (code source).foldl Depths.step {} ∧
    (Text.byteLength source < 2 ^ 63 → ∀ read, read <+: code source → ∀ bracket,
      -2 ^ 63 ≤ (read.foldl Depths.step {}).get bracket ∧ (read.foldl Depths.step {}).get bracket < 2 ^ 63) := by
  refine ⟨⟨fun bracket => verdict bracket (excess bracket (code source)), fun bracket outcome => ⟨Told.eq_verdict, ?_⟩,
    diagnostics_eq source⟩, fun other reordered => findings_congr (excess_of_perm reordered),
    fun other replaced => findings_congr fun bracket => by rw [code_of_recommented replaced],
    get_depthsAtEnd_append_break source, depthsAtEnd_eq_foldl source, fun small read starts bracket => ?_⟩
  · rintro rfl
    exact told_verdict source bracket
  · have bound := natAbs_get_foldl_le starts bracket
    constructor <;> omega

/-- Three lines in another order and with another comment; the first slash of the comment stands next to a bracket. -/
theorem counted_exact_three_lines :
    (Text.lines "f([\n(///)\nx] // )".toList).Perm (Text.lines "x] // )\nf([\n(///)".toList) ∧
    findings "x] // )\nf([\n(///)".toList = [⟨1, 1, .unbalanced .round .missing 2⟩] ∧
    List.Forall₂ Recommented (Text.lines "f([\n(///)\nx] // )".toList) (Text.lines "f([\n(//]]\nx] // )".toList) ∧
    findings "f([\n(//]]\nx] // )".toList = [⟨1, 1, .unbalanced .round .missing 2⟩] ∧
    Text.byteLength "f([\n(///)\nx] // )".toList < 2 ^ 63 ∧ "f([(".toList <+: code "f([\n(///)\nx] // )".toList ∧
    ("f([(".toList.foldl Depths.step {}).get .round < 2 ^ 63 := by
  have reordered : (Text.lines "f([\n(///)\nx] // )".toList).Perm (Text.lines "x] // )\nf([\n(///)".toList) := by decide
  have replaced : List.Forall₂ Recommented (Text.lines "f([\n(///)\nx] // )".toList)
      (Text.lines "f([\n(//]]\nx] // )".toList) :=
    .cons (.kept _) (.cons (@Recommented.replaced ['('] ['/', ')'] _ (codeOf_iff.mpr rfl)) (.cons (.kept _) .nil))
  have small : Text.byteLength "f([\n(///)\nx] // )".toList < 2 ^ 63 := by decide
  have starts : "f([(".toList <+: code "f([\n(///)\nx] // )".toList := by decide
  have told : findings "f([\n(///)\nx] // )".toList = [⟨1, 1, .unbalanced .round .missing 2⟩] := by decide
  obtain ⟨_, inAnyOrder, withAnyComment, _, _, inWord⟩ := counted_exact "f([\n(///)\nx] // )".toList
  exact ⟨reordered, (inAnyOrder _ reordered).trans told, replaced, (withAnyComment _ replaced).trans told, small, starts,
    (inWord small _ starts .round).2⟩

end PatternLint.Brackets
