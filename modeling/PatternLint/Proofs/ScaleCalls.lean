import Mathlib.Data.List.Basic
import PatternLint.Proofs.LongerTexts
import PatternLint.Proofs.RuleFindings

/-!
# The scales of a source

The arguments of the calls of `.scale` are those of the successive leftmost calls, each search going on behind the last
call (`Successive`), and the scales of a source are these arguments in the order of their first uses (`FirstUses`). Both
fix what is listed (`Scales.distinct_exact`). When a source goes on, the calls found so far are still found, so its
scales are the first ones of the longer source (`Scales.distinct_append`).
-/
namespace PatternLint

variable {α : Type}

/-! ### Successive places -/

/-- What a form captures at its leftmost place, at the leftmost place behind that part, and so on. -/
inductive Successive (free : Option Char → Prop) (form : α → Text → Prop) : Text → List α → Prop
  | none {text : Text} : (∀ o, ¬ Stands free form text o) → Successive free form text []
  | next {text : Text} {o : Occurrence α} {captured : List α} : Leftmost free form text o →
      Successive free form o.after captured → Successive free form text (o.captured :: captured)

namespace Pattern

variable {pattern : Pattern α} {free : Option Char → Prop} {form : α → Text → Prop}

theorem all_of_nowhere (spells : pattern.Spells free form) {text : Text} (nowhere : ∀ o, ¬ Stands free form text o) :
    pattern.all text = [] := by
  have nothing := (find?_eq_none_iff spells text).mpr nowhere
  rw [all]
  split
  · rfl
  · next found =>
    rw [nothing] at found
    cases found

theorem all_of_leftmost (spells : pattern.Spells free form) {text : Text} {o : Occurrence α}
    (first : Leftmost free form text o) : pattern.all text = o.captured :: pattern.all o.after := by
  have there := (find?_eq_some_iff_leftmost spells text o).mpr first
  rw [all]
  split
  · next found =>
    rw [there] at found
    cases found
  · next found =>
    rw [there] at found
    cases found
    rfl

theorem successive_all (spells : pattern.Spells free form) (text : Text) :
    Successive free form text (pattern.all text) := by
  fun_induction all pattern text with
  | case1 text nothing => exact .none ((find?_eq_none_iff spells text).mp nothing)
  | case2 text o found ih => exact .next ((find?_eq_some_iff_leftmost spells text o).mp found) ih

theorem eq_all_of_successive (spells : pattern.Spells free form) {text : Text} {captured : List α}
    (successive : Successive free form text captured) : captured = pattern.all text := by
  induction successive with
  | none nowhere => rw [all_of_nowhere spells nowhere]
  | next first _ ih => rw [all_of_leftmost spells first, ih]

theorem successive_iff (spells : pattern.Spells free form) {text : Text} {captured : List α} :
    Successive free form text captured ↔ captured = pattern.all text :=
  ⟨eq_all_of_successive spells, fun same => same ▸ successive_all spells text⟩

/-- When a text goes on, what has been found in it is still found first. -/
theorem all_prefix_append (spells : pattern.Spells free form) (ends : EndsTogether form) (text more : Text) :
    pattern.all text <+: pattern.all (text ++ more) := by
  have successive := successive_all spells text
  generalize pattern.all text = captured at successive
  induction successive with
  | none => exact List.nil_prefix
  | @next text o _ first _ ih =>
    rw [all_of_leftmost spells (first.append ends more)]
    exact (List.prefix_cons_inj o.captured).mpr ih

end Pattern

/-! ### First uses -/

/-- Each of the arguments is listed once, in the order of their first uses. -/
structure FirstUses (arguments listed : List Text) : Prop where
  once : listed.Nodup
  mem_iff : ∀ argument, argument ∈ listed ↔ argument ∈ arguments
  ordered : listed.Pairwise fun one next => arguments.idxOf one < arguments.idxOf next

namespace FirstUses

/-- One argument more is listed at the end, unless it has been used before. -/
theorem concat {arguments listed : List Text} (uses : FirstUses arguments listed) (argument : Text) :
    FirstUses (arguments ++ [argument]) (if argument ∈ arguments then listed else listed ++ [argument]) := by
  have kept : listed.Pairwise fun one next =>
      (arguments ++ [argument]).idxOf one < (arguments ++ [argument]).idxOf next := by
    refine uses.ordered.imp_of_mem fun {one next} member member' before => ?_
    rwa [List.idxOf_append_of_mem ((uses.mem_iff one).mp member), List.idxOf_append_of_mem ((uses.mem_iff next).mp member')]
  by_cases used : argument ∈ arguments
  · rw [if_pos used]
    refine ⟨uses.once, fun other => ?_, kept⟩
    rw [uses.mem_iff, List.mem_append, List.mem_singleton]
    exact ⟨.inl, fun either => either.elim id fun same => same ▸ used⟩
  · rw [if_neg used]
    have unlisted : argument ∉ listed := mt (uses.mem_iff argument).mp used
    refine ⟨List.nodup_append.mpr ⟨uses.once, by simp, ?_⟩, fun other => ?_,
      List.pairwise_append.mpr ⟨kept, List.pairwise_singleton _ _, ?_⟩⟩
    · rintro one member _ last rfl
      exact unlisted (List.mem_singleton.mp last ▸ member)
    · rw [List.mem_append, List.mem_append, uses.mem_iff]
    · intro one member last isLast
      rw [List.mem_singleton.mp isLast, List.idxOf_append_of_mem ((uses.mem_iff one).mp member),
        List.idxOf_append_of_notMem used]
      exact Nat.lt_add_right _ (List.idxOf_lt_length_of_mem ((uses.mem_iff one).mp member))

theorem unique {arguments listed other : List Text} (uses : FirstUses arguments listed)
    (uses' : FirstUses arguments other) : listed = other := by
  have same : listed.Perm other := (List.perm_ext_iff_of_nodup uses.once uses'.once).mpr fun argument =>
    (uses.mem_iff argument).trans (uses'.mem_iff argument).symm
  refine same.eq_of_pairwise (fun one next _ _ before after => ?_) uses.ordered uses'.ordered
  exact absurd before (Nat.lt_asymm after)

end FirstUses

theorem firstUses_eraseDups (arguments : List Text) : FirstUses arguments arguments.eraseDups := by
  induction arguments using List.reverseRecOn with
  | nil => exact ⟨List.nodup_nil, fun _ => Iff.rfl, .nil⟩
  | append_singleton arguments argument ih =>
    have step : (arguments ++ [argument]).eraseDups =
        if argument ∈ arguments then arguments.eraseDups else arguments.eraseDups ++ [argument] := by
      rw [List.eraseDups_append]
      by_cases used : argument ∈ arguments <;> simp [List.removeAll, List.eraseDups_cons, used]
    rw [step]
    exact ih.concat argument

namespace Scales

/-! ### The list of scales -/

/-- The arguments of the successive calls of `.scale` on a quoted argument. -/
def Uses (source : Text) (arguments : List Text) : Prop :=
  Successive (fun _ => True) (Call ".scale".toList Quoted) source arguments

/-- The warning about the scales of a source. -/
def warning (scales : List Text) : Diagnostic :=
  ⟨1, 1, "Multiple different scales detected: ".toList ++ List.intercalate ", ".toList scales ++
    ". Consider using a single scale for harmonic consistency.".toList, .warning⟩

theorem scaleCall_spells : scaleCall.Spells (fun _ => True) (Call ".scale".toList Quoted) where
  mayFollow_iff _ := by simp [scaleCall]
  read_iff := Reader.call_iff Reader.quoted_readsArgument

theorem uses_iff {source : Text} {arguments : List Text} : Uses source arguments ↔ arguments = scaleCall.all source :=
  Pattern.successive_iff scaleCall_spells

theorem diagnostics_eq (source : Text) :
    (findings source).map (·.diagnostic) = if 2 ≤ (distinct source).length then [warning (distinct source)] else [] := by
  rw [findings_eq]
  split <;> rfl

/-- The scales of a source are the arguments of its successive calls of `.scale`, each once, in the order of their first
    uses, and nothing else is. There is one warning, and it lists them, just when there are two or more. -/
theorem distinct_exact (source : Text) :
    (∀ scales, (∃ arguments, Uses source arguments ∧ FirstUses arguments scales) ↔ distinct source = scales) ∧
    (findings source).map (·.diagnostic) = if 2 ≤ (distinct source).length then [warning (distinct source)] else [] := by
  refine ⟨fun scales => ⟨?_, ?_⟩, diagnostics_eq source⟩
  · rintro ⟨arguments, uses, first⟩
    obtain rfl := uses_iff.mp uses
    exact (firstUses_eraseDups _).unique first
  · rintro rfl
    exact ⟨_, uses_iff.mpr rfl, firstUses_eraseDups _⟩

/-- A call that starts in what looks like the argument of another one. -/
example : distinct ".scale('.scale('a')').scale(\"b\" )".toList = ["a".toList, "b".toList] := by decide +kernel

/-! ### Longer sources -/

/-- The scales of a source are the first ones of each source that goes on after it, so one that is warned about is warned
    about in each of these, with these scales in front. -/
theorem distinct_append (source more : Text) :
    distinct source <+: distinct (source ++ more) ∧
    (findings source ≠ [] → ∃ added,
      (findings (source ++ more)).map (·.diagnostic) = [warning (distinct source ++ added)]) := by
  obtain ⟨later, found⟩ := Pattern.all_prefix_append scaleCall_spells (endsTogether_call (by decide)) source more
  obtain ⟨added, longer⟩ : distinct source <+: distinct (source ++ more) := by
    rw [distinct, distinct, ← found, List.eraseDups_append]
    exact List.prefix_append _ _
  refine ⟨⟨added, longer⟩, fun warned => ⟨added, ?_⟩⟩
  have many : 2 ≤ (distinct source).length := by
    by_contra few
    exact warned (by rw [findings_eq, if_neg few])
  rw [diagnostics_eq, ← longer, if_pos (by rw [List.length_append]; omega)]

/-- A source that ends in the middle of a call, which is then completed. -/
theorem distinct_append_open_call :
    findings ".scale('a').scale( \"b\").scale('".toList ≠ [] ∧
    ∃ added, (findings (".scale('a').scale( \"b\").scale('".toList ++ "c')".toList)).map (·.diagnostic) =
      [warning (["a".toList, "b".toList] ++ added)] := by
  have warned : findings ".scale('a').scale( \"b\").scale('".toList ≠ [] := by decide +kernel
  have scales : distinct ".scale('a').scale( \"b\").scale('".toList = ["a".toList, "b".toList] := by decide +kernel
  exact ⟨warned, scales ▸ (distinct_append _ "c')".toList).2 warned⟩

end Scales
end PatternLint
