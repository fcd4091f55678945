import PatternLint.Proofs.LineRules

/-!
# Standalone calls

The first standalone call of a line is the only one that counts. Its argument is quoted as it is written, and names a
waveform when the waveform is what stands before its first slash, in lower case; no argument names two waveforms
(`Sample.standalone_exact`). Beyond the capitals of ASCII lower case plays no part: what it makes of other characters
is in no name. A call stands alone behind every character but the point and those that make up words of ASCII
(`Sample.in_front_exact`).
-/
namespace PatternLint

/-! ### Lower case -/

namespace Text

theorem toLower_ne_slash {c : Char} (other : c ≠ '/') : c.toLower ≠ '/' := by
  unfold Char.toLower
  split
  · next capital =>
    intro same
    have value : (c.val + ('a'.val - 'A'.val)).toNat = 47 := congrArg (fun d : Char => d.val.toNat) same
    have low : 65 ≤ c.val.toNat := capital.1
    have high : c.val.toNat ≤ 90 := capital.2
    rw [UInt32.toNat_add] at value
    change (c.val.toNat + 32) % 2 ^ 32 = 47 at value
    omega
  · exact other

theorem slash_not_mem_lowercaseChar {c : Char} (other : c ≠ '/') : ∀ d ∈ lowercaseChar c, decide (d ≠ '/') = true := by
  unfold lowercaseChar
  split
  · exact List.all_eq_true.mp (by decide)
  · split
    · exact List.all_eq_true.mp (by decide)
    · simpa using toLower_ne_slash other

/-- Lower case keeps the slashes of a text. -/
theorem takeWhile_lowercase (text : Text) :
    (lowercase text).takeWhile (· ≠ '/') = lowercase (text.takeWhile (· ≠ '/')) := by
  induction text with
  | nil => rfl
  | cons c text ih =>
    have unfolded (text : Text) : lowercase (c :: text) = lowercaseChar c ++ lowercase text := rfl
    by_cases slash : c = '/'
    · subst slash
      rfl
    · rw [unfolded, List.takeWhile_append_of_pos (slash_not_mem_lowercaseChar slash), ih,
        List.takeWhile_cons_of_pos (by simpa using slash), unfolded]

/-- A text is in lower case a word of ASCII without a `k` just when it is that word in the lower case of ASCII. The two
    other characters that become letters of ASCII become a `k` or leave a mark that is not in the word. -/
theorem lowercase_eq_iff {word : Text} (ascii : word.all (·.toNat < 128) = true) (plain : 'k' ∉ word) (text : Text) :
    lowercase text = word ↔ text.map Char.toLower = word := by
  have beyond {c : Char} (large : 128 ≤ c.toNat) : c ∉ word := fun member =>
    absurd (of_decide_eq_true (List.all_eq_true.mp ascii c member)) (Nat.not_lt_of_le large)
  have apart (c d : Char) (special : c ∈ text) (becomes : d ∈ lowercaseChar c) (absent : d ∉ word)
      (kept : c.toLower = c) (absent' : c ∉ word) : lowercase text = word ↔ text.map Char.toLower = word := by
    constructor
    · rintro rfl
      exact absurd (List.mem_flatMap.mpr ⟨c, special, becomes⟩) absent
    · rintro rfl
      exact absurd (List.mem_map.mpr ⟨c, special, kept⟩) absent'
  by_cases dotted : '\u0130' ∈ text
  · exact apart '\u0130' '\u0307' dotted (by decide) (beyond (by decide)) (by decide) (beyond (by decide))
  · by_cases kelvin : '\u212a' ∈ text
    · exact apart '\u212a' 'k' kelvin (by decide) plain (by decide) (beyond (by decide))
    · have same : lowercase text = text.map Char.toLower := by
        rw [List.map_eq_flatMap]
        refine List.flatMap_congr fun c member => ?_
        have notDotted : c ≠ '\u0130' := fun is => dotted (is ▸ member)
        have notKelvin : c ≠ '\u212a' := fun is => kelvin (is ▸ member)
        rw [lowercaseChar, if_neg notDotted, if_neg notKelvin]
      rw [same]

end Text

/-- An argument names a waveform in the lower case of ASCII or not at all. -/
theorem sampleRoot_eq_name_iff (argument : Text) (wave : Waveform) :
    sampleRoot argument = wave.name ↔ (argument.takeWhile (· ≠ '/')).map Char.toLower = wave.name := by
  rw [sampleRoot, Text.takeWhile_lowercase]
  exact Text.lowercase_eq_iff (by cases wave <;> decide) (by cases wave <;> decide) _

namespace Sample

/-- The error about a call, which quotes its argument as it is written and the waveform that the argument names. -/
def complaint (line : Line) (call : Occurrence Text) (wave : Waveform) : Diagnostic :=
  ⟨line.number, call.before.length + 1,
    "s(\"".toList ++ call.captured ++ "\") is invalid. \"".toList ++ wave.name ++
      "\" is a synth waveform, not a sample. Use n() or note() with .s(\"".toList ++ wave.name ++ "\") for synths.".toList,
    .error⟩

/-- What is told of a line. -/
inductive Told (line : Line) : List Diagnostic → Prop
  | uncalled : (∀ call, ¬ FirstCall line.text call) → Told line []
  | unnamed {call : Occurrence Text} : FirstCall line.text call →
      (∀ wave : Waveform, sampleRoot call.captured ≠ wave.name) → Told line []
  | named {call : Occurrence Text} {wave : Waveform} : FirstCall line.text call → sampleRoot call.captured = wave.name →
      Told line [complaint line call wave]

theorem FirstCall.unique {text : Text} {call other : Occurrence Text} (first : FirstCall text call)
    (second : FirstCall text other) : call = other :=
  standaloneCall_spells.leftmost_unique first second

theorem told_findings (line : Line) : Told line ((findings line).map (·.diagnostic)) := by
  by_cases called : ∃ call, FirstCall line.text call
  · obtain ⟨call, first⟩ := called
    by_cases named : ∃ wave : Waveform, sampleRoot call.captured = wave.name
    · obtain ⟨wave, named⟩ := named
      rw [findings_eq_singleton first named, first.1.columnAt_eq]
      exact .named first named
    · have unnamed (wave : Waveform) : sampleRoot call.captured ≠ wave.name := fun own => named ⟨wave, own⟩
      rw [(findings_eq_nil_iff line).mpr fun other first' wave => first.unique first' ▸ unnamed wave]
      exact .unnamed first unnamed
  · have uncalled (call : Occurrence Text) : ¬ FirstCall line.text call := fun first => called ⟨call, first⟩
    rw [(findings_eq_nil_iff line).mpr fun call first => absurd first (uncalled call)]
    exact .uncalled uncalled

theorem Told.unique {line : Line} {one other : List Diagnostic} (told : Told line one) (told' : Told line other) :
    one = other := by
  cases told with
  | uncalled none =>
    cases told' with
    | named first _ => exact absurd first (none _)
    | _ => rfl
  | unnamed first unnamed =>
    cases told' with
    | named first' named => exact absurd named (first.unique first' ▸ unnamed _)
    | _ => rfl
  | named first named =>
    cases told' with
    | uncalled none => exact absurd first (none _)
    | unnamed first' unnamed => exact absurd named (first'.unique first ▸ unnamed _)
    | named first' named' =>
      cases first.unique first'
      rw [Waveform.name_injective (named.symm.trans named')]

/-- Nothing is told of a line without a standalone call, or when its first one names no waveform; otherwise there is one
    error, at the `s` of the call. No argument names two waveforms, although the name of one starts that of another, and
    apart from the capitals of ASCII no character is taken for a letter of a name. -/
theorem standalone_exact (line : Line) :
    (∀ diagnostics, Told line diagnostics ↔ (findings line).map (·.diagnostic) = diagnostics) ∧
    (∀ argument (wave other : Waveform), wave.named argument = true → other.named argument = true → wave = other) ∧
    Waveform.saw.name <+: Waveform.sawtooth.name ∧
    ∀ argument (wave : Waveform),
      sampleRoot argument = wave.name ↔ (argument.takeWhile (· ≠ '/')).map Char.toLower = wave.name := by
  refine ⟨fun diagnostics => ⟨(told_findings line).unique, ?_⟩, fun argument wave other => Waveform.eq_of_named,
    ⟨"tooth".toList, rfl⟩, sampleRoot_eq_name_iff⟩
  rintro rfl
  exact told_findings line

/-! ### In front of a call -/

/-- The place that is reported is that of the first call, and the text in front of it is what stands before the call. -/
theorem exists_firstCall_of_mem {line : Line} {finding : Finding} (reported : finding ∈ findings line) :
    ∃ call, FirstCall line.text call ∧ finding.column = call.before.length + 1 ∧
      line.text.take (finding.column - 1) = call.before := by
  obtain ⟨call, first, _, _, rfl⟩ := mem_findings_iff.mp reported
  obtain ⟨part, _, parts⟩ := first.1.parts
  refine ⟨call, first, first.1.columnAt_eq, ?_⟩
  dsimp only
  rw [first.1.columnAt_eq, Nat.add_sub_cancel]
  nth_rewrite 1 [parts]
  rw [List.append_assoc, List.take_left]

/-- The first character of a call of `s` may not stand in front of another one. -/
theorem firstCall_behind {c : Char} (free : StandsAlone (some c)) {text : Text} {call : Occurrence Text}
    (first : FirstCall text call) (front : call.before = []) : FirstCall (c :: text) { call with before := [c] } := by
  obtain ⟨part, spelled, parts⟩ := first.1.parts
  refine ⟨⟨free, part, spelled, by simp [parts, front]⟩, fun other there => ?_⟩
  cases place : other.before with
  | nil =>
    obtain ⟨_, ⟨_, _, _, _, ⟨_, _, rfl⟩, _, _, _, rfl⟩, cut⟩ := there.parts
    rw [place] at cut
    obtain rfl : c = 's' := (List.cons.inj cut).1
    exact absurd (free 's' rfl).2.1 (by decide)
  | cons _ _ => exact Nat.succ_le_succ (Nat.zero_le _)

theorem mem_findings_behind {c : Char} (free : StandsAlone (some c)) {line : Line} {finding : Finding}
    (reported : finding ∈ findings line) (front : finding.column = 1) :
    { finding with column := 2 } ∈ findings ⟨line.number, c :: line.text⟩ := by
  obtain ⟨call, first, wave, named, rfl⟩ := mem_findings_iff.mp reported
  dsimp only at front
  rw [first.1.columnAt_eq, Nat.add_eq_right, List.length_eq_zero_iff] at front
  have second := firstCall_behind free first front
  exact mem_findings_iff.mpr ⟨_, second, wave, named, by rw [second.1.columnAt_eq]; rfl⟩

/-- What is reported is the first standalone call, at its `s`. Whatever counts as a letter or digit beyond ASCII, no longer
    name is taken for `s` just when neither such a character nor a dollar sign stands in front of the call. And a call
    that starts a line is reported behind every character but the point, the letters and digits of ASCII and the
    underscore. -/
theorem in_front_exact {line : Line} {finding : Finding} (reported : finding ∈ findings line) (isLetter : Char → Bool) :
    (∃ call, FirstCall line.text call ∧ finding.column = call.before.length + 1) ∧
    ((∀ c ∈ (line.text.take (finding.column - 1)).getLast?,
        c ≠ '.' ∧ c ≠ '_' ∧ c ≠ '$' ∧ c.isAlphanum = false ∧ isLetter c = false) ↔
      ∀ c ∈ (line.text.take (finding.column - 1)).getLast?, c ≠ '$' ∧ isLetter c = false) ∧
    (finding.column = 1 → ∀ c, { finding with column := 2 } ∈ findings ⟨line.number, c :: line.text⟩ ↔
      c ≠ '.' ∧ c.isAlphanum = false ∧ c ≠ '_') := by
  obtain ⟨call, first, column, front⟩ := exists_firstCall_of_mem reported
  refine ⟨⟨call, first, column⟩, ⟨?_, ?_⟩, fun start c => ⟨fun behind => ?_, fun free => ?_⟩⟩
  · intro alone c last
    obtain ⟨_, _, noDollar, _, noLetter⟩ := alone c last
    exact ⟨noDollar, noLetter⟩
  · intro apart c last
    obtain ⟨noPoint, noWord, noUnderscore⟩ := first.1.mayStart c (front ▸ last)
    obtain ⟨noDollar, noLetter⟩ := apart c last
    exact ⟨noPoint, noUnderscore, noDollar, noWord, noLetter⟩
  · obtain ⟨_, second, _, before⟩ := exists_firstCall_of_mem behind
    refine second.1.mayStart c ?_
    rw [← before]
    rfl
  · have alone : StandsAlone (some c) := fun d same => Option.some.inj same ▸ free
    exact mem_findings_behind alone reported start

/-- A call behind an opening parenthesis, and one that is reported behind a letter beyond ASCII. -/
theorem in_front_exact_parenthesis :
    ⟨1, 7, .waveformAsSample "saw".toList .saw⟩ ∈ findings ⟨1, "stack(s('saw'))".toList⟩ ∧
    (∀ c ∈ ("stack(s('saw'))".toList.take (7 - 1)).getLast?,
      c ≠ '.' ∧ c ≠ '_' ∧ c ≠ '$' ∧ c.isAlphanum = false ∧ (c == 'é') = false) ∧
    ⟨1, 1, .waveformAsSample "saw".toList .saw⟩ ∈ findings ⟨1, "s('saw')".toList⟩ ∧
    ⟨1, 2, .waveformAsSample "saw".toList .saw⟩ ∈ findings ⟨1, "és('saw')".toList⟩ := by
  have inside : ⟨1, 7, .waveformAsSample "saw".toList .saw⟩ ∈ findings ⟨1, "stack(s('saw'))".toList⟩ := by decide
  have start : ⟨1, 1, .waveformAsSample "saw".toList .saw⟩ ∈ findings ⟨1, "s('saw')".toList⟩ := by decide
  refine ⟨inside, (in_front_exact inside (· == 'é')).2.1.mpr fun c last => ?_, start, ?_⟩
  · obtain rfl : '(' = c := Option.some.inj last
    decide
  · exact ((in_front_exact start (· == 'é')).2.2 rfl 'é').mpr (by decide)

/-- A dollar sign and a letter beyond ASCII in front of an `s` make no longer word of it. -/
theorem reported_in_longer_name :
    findings ⟨1, "$s(\"saw\")".toList⟩ = [⟨1, 2, .waveformAsSample "saw".toList .saw⟩] ∧
    ("$s(\"saw\")".toList.take (2 - 1)).getLast? = some '$' ∧
    findings ⟨1, "és('saw')".toList⟩ = [⟨1, 2, .waveformAsSample "saw".toList .saw⟩] ∧
    ("és('saw')".toList.take (2 - 1)).getLast? = some 'é' := by decide

end Sample
end PatternLint
