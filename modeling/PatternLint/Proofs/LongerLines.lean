import PatternLint.Proofs.AmountWarnings
import PatternLint.Proofs.EscapeHatches
import PatternLint.Proofs.LongerTexts
import PatternLint.Proofs.PlaybackColumn
import PatternLint.Proofs.StandaloneCalls

/-!
# Lines that go on

Typing on at the end of a line takes back nothing that is reported on it. No part of the forms the line rules look for
contains another one and goes on behind it (`endsTogether_of_last`, `endsTogether_of_length`), so the call that a rule
judges stays the one it judges (`Pattern.find?_append`). Two things can change: a construct that is listed before the
reported one may come in, and the state of playback may be mentioned (`LineRule.findings_append_exact`).
-/
namespace PatternLint

variable {α : Type}

/-! ### Forms that end together -/

/-- Parts that end at their only `c` end together. -/
theorem endsTogether_of_last {form : α → Text → Prop} (c : Char)
    (last : ∀ value part, form value part → ∃ front, c ∉ front ∧ part = front ++ [c]) : EndsTogether form := by
  intro value other before part after outer inner
  obtain ⟨front, only, parts⟩ := last _ _ outer
  obtain ⟨front', _, rfl⟩ := last _ _ inner
  -- the outer part holds one `c`, so the inner one ends at the same
  have aligned : front ++ c :: [] = (before ++ front') ++ c :: after := by simpa using parts.symm
  exact ((List.append_cons_inj_of_notMem only List.not_mem_nil).mp aligned).2.2.symm

/-- Parts of one length end together. -/
theorem endsTogether_of_length {form : α → Text → Prop} (length : Nat)
    (fixed : ∀ value part, form value part → part.length = length) : EndsTogether form := by
  intro value other before part after outer inner
  have long := fixed _ _ outer
  rw [List.length_append, List.length_append, fixed _ _ inner] at long
  exact List.eq_nil_of_length_eq_zero (by omega)

theorem Gap.not_mem {gap : Text} (blank : Gap gap) {c : Char} (solid : isBlank c = false) : c ∉ gap := fun member =>
  Bool.noConfusion (solid.symm.trans (blank c member))

theorem endsTogether_opening {word : Text} (plain : '(' ∉ word) :
    EndsTogether (fun _ : Unit => Opening word) := by
  apply endsTogether_of_last '('
  rintro _ _ ⟨gap, blank, rfl⟩
  exact ⟨word ++ gap, by simp [plain, blank.not_mem (c := '(') (by decide)], rfl⟩

theorem endsTogether_word (word : Text) : EndsTogether (fun _ : Unit => (· = word)) := by
  apply endsTogether_of_length word.length
  rintro _ _ rfl
  rfl

theorem endsTogether_call_digits {word : Text} (plain : ')' ∉ word) : EndsTogether (Call word DigitsAndPoints) := by
  apply endsTogether_of_last ')'
  rintro _ _ ⟨_, gap, literal, gap', ⟨spaces, blanks, rfl⟩, blank, ⟨_, numerals, rfl⟩, blank', rfl⟩
  have inside : ')' ∉ literal := fun member => absurd (numerals _ member) (by decide)
  refine ⟨word ++ spaces ++ ['('] ++ gap ++ literal ++ gap', ?_, rfl⟩
  have solid : isBlank ')' = false := by decide
  simp [plain, inside, blanks.not_mem solid, blank.not_mem solid, blank'.not_mem solid]

theorem endsTogether_begun (hatch : EscapeHatch) : EndsTogether (fun _ : Unit => hatch.Begun) := by
  cases hatch with
  | importing =>
    apply endsTogether_of_length 7
    rintro _ _ ⟨_, _, rfl⟩
    rfl
  | require => exact @endsTogether_opening _ (by decide)
  | eval => exact @endsTogether_opening _ (by decide)
  | function => exact @endsTogether_opening _ (by decide)
  | window => exact @endsTogether_word _
  | document => exact @endsTogether_word _
  | fetch => exact @endsTogether_opening _ (by decide)
  | httpRequest => exact @endsTogether_word _

/-! ### What is found again -/

section
variable {pattern : Pattern α} {free : Option Char → Prop} {form : α → Text → Prop} {text : Text} {o : Occurrence α}

/-- What is found in a text is found in every longer one, at the same place. -/
theorem Pattern.find?_append (spells : pattern.Spells free form) (ends : EndsTogether form)
    (found : pattern.find? text = some o) (more : Text) :
    pattern.find? (text ++ more) = some { o with after := o.after ++ more } :=
  (find?_eq_some_iff_leftmost spells _ _).mpr
    (((find?_eq_some_iff_leftmost spells _ _).mp found).append ends more)

theorem Pattern.columnAt_append (found : pattern.find? text = some o) (more : Text) :
    (text ++ more).columnAt (Text.byteLength o.before) = text.columnAt (Text.byteLength o.before) := by
  obtain ⟨part, _, rfl⟩ := Pattern.find?_parts found
  simp only [List.append_assoc, Text.columnAt_byteLength]

end

theorem Contains.append {form : Text → Prop} {text : Text} (contains : Contains form text) (more : Text) :
    Contains form (text ++ more) := by
  obtain ⟨before, part, after, ofForm, rfl⟩ := contains
  exact ⟨before, part, after ++ more, ofForm, by simp⟩

/-- A weaker test is met at the same place of a list or before it. -/
theorem exists_find?_of_imp {list : List α} [DecidableEq α] {p q : α → Bool} {a : α} (found : list.find? p = some a)
    (weaker : ∀ b, p b = true → q b = true) :
    ∃ b, list.find? q = some b ∧ (b = a ∨ list.idxOf b < list.idxOf a) := by
  induction list with
  | nil => cases found
  | cons c list ih =>
    by_cases now : p c = true
    · rw [List.find?_cons_of_pos now] at found
      exact ⟨c, List.find?_cons_of_pos (weaker c now), .inl (Option.some.inj found)⟩
    · rw [List.find?_cons_of_neg now] at found
      have later : c ≠ a := fun same => now (same ▸ List.find?_some found)
      by_cases sooner : q c = true
      · refine ⟨c, List.find?_cons_of_pos sooner, .inr ?_⟩
        rw [List.idxOf_cons_self, List.idxOf_cons_ne _ later]
        exact Nat.succ_pos _
      · obtain ⟨b, found', place⟩ := ih found
        have later' : c ≠ b := fun same => sooner (same ▸ List.find?_some found')
        refine ⟨b, by rw [List.find?_cons_of_neg sooner, found'], place.imp_right fun before => ?_⟩
        rw [List.idxOf_cons_ne _ later, List.idxOf_cons_ne _ later']
        exact Nat.succ_lt_succ before

/-! ### The rules -/

namespace Sample

theorem findings_append {number : Nat} {text : Text} {call : Occurrence Text}
    (found : standaloneCall.find? text = some call) (more : Text) :
    findings ⟨number, text ++ more⟩ = findings ⟨number, text⟩ := by
  have found' := Pattern.find?_append standaloneCall_spells (endsTogether_call (by decide)) found more
  simp only [findings, found, found', Pattern.columnAt_append found]

end Sample

namespace Range

theorem finding?_append {number : Nat} {text : Text} {effect : Effect} {call : Occurrence Text}
    (found : (effectCall effect).find? text = some call) (more : Text) :
    finding? ⟨number, text ++ more⟩ effect = finding? ⟨number, text⟩ effect := by
  have ends : EndsTogether (Call ('.' :: effect.name) DigitsAndPoints) :=
    endsTogether_call_digits (by cases effect <;> decide)
  have found' := Pattern.find?_append (effectCall_spells effect) ends found more
  simp only [finding?, found, found', Pattern.columnAt_append found]

end Range

namespace Escape

theorem exists_firstHatch?_append {text : Text} {hatch : EscapeHatch} (first : firstHatch? text = some hatch)
    (more : Text) : ∃ hatch', firstHatch? (text ++ more) = some hatch' ∧
      (hatch' = hatch ∨ EscapeHatch.all.idxOf hatch' < EscapeHatch.all.idxOf hatch) := by
  refine exists_find?_of_imp first fun other met => ?_
  rw [List.contains_iff_mem, mem_meetAll_iff, or_iff_right List.not_mem_nil] at met ⊢
  exact met.append more

theorem exists_findings_append {number : Nat} {text : Text} {finding : Finding}
    (reported : finding ∈ findings ⟨number, text⟩) (more : Text) :
    ∃ hatch hatch' finding', finding.cause = .sandboxEscape hatch ∧ finding'.cause = .sandboxEscape hatch' ∧
      findings ⟨number, text ++ more⟩ = [finding'] ∧
      (finding' = finding ∨ EscapeHatch.all.idxOf hatch' < EscapeHatch.all.idxOf hatch) := by
  obtain ⟨hatch, place, first, found, rfl⟩ := mem_findings_iff.mp reported
  obtain ⟨hatch', first', same | earlier⟩ := exists_firstHatch?_append first more
  · subst same
    have found' := Pattern.find?_append hatch'.pattern_spells (@endsTogether_begun hatch') found more
    refine ⟨hatch', hatch', _, rfl, ?_, findings_eq_singleton first' found', .inl ?_⟩
    · rfl
    · rw [Pattern.columnAt_append found]
  · obtain ⟨place', found', _⟩ := exists_find?_of_firstHatch? first'
    exact ⟨hatch, hatch', _, rfl, rfl, findings_eq_singleton first' found', .inr earlier⟩

end Escape

namespace Playback

theorem occursIn_playbackState_iff (text : Text) :
    playbackState.occursIn text = true ↔ Contains (· = "isPlaying".toList) text :=
  Pattern.occursIn_iff_contains (word_spells 'i' "sPlaying".toList) text

theorem findings_append {number : Nat} {text : Text} {finding : Finding}
    (reported : finding ∈ findings ⟨number, text⟩) (more : Text) :
    findings ⟨number, text ++ more⟩ = if playbackState.occursIn (text ++ more) then [] else [finding] := by
  obtain ⟨-, name, call, named, called, rfl⟩ := eq_of_mem_findings reported
  have found := (find?_playName_iff text name).mpr named
  have found' : playName.find? (text ++ more) = some _ :=
    Pattern.find?_append (word_spells '.' "play".toList) (@endsTogether_word _) found more
  have calls : playCall.occursIn (text ++ more) = true := by
    refine (Pattern.occursIn_iff_contains playCall_spells _).mpr (Contains.append ?_ more)
    exact (Pattern.occursIn_iff_contains playCall_spells _).mp
      (Option.isSome_iff_exists.mpr ⟨call, (find?_playCall_iff text call).mpr called⟩)
  have column : (text ++ more).columnAt (Text.byteLength name.before) = name.before.length + 1 := by
    rw [Pattern.columnAt_append found, named.1.columnAt_eq]
  cases mentioned : playbackState.occursIn (text ++ more) with
  | true => simp [findings, calls, mentioned]
  | false =>
    have alone := @findings_eq_singleton ⟨number, text ++ more⟩ _ (by rw [calls, mentioned]; rfl) found'
    rw [alone, if_neg Bool.false_ne_true, column]

end Playback

/-! ### All rules -/

/-- What is found on a line is found on every line that goes on from it. A standalone call of `s` on a quoted argument
    fixes what is told of samples, and a call of an effect on digits and points what is told of that effect. An escape
    stays one, the same or one that is listed before it, and direct playback stays what it is as long as the longer line
    does not mention the state of playback. -/
theorem LineRule.findings_append_exact (number : Nat) (text more : Text) :
    ((∃ call, Stands Sample.StandsAlone (Call ['s'] Quoted) text call) →
      Sample.findings ⟨number, text ++ more⟩ = Sample.findings ⟨number, text⟩) ∧
    (∀ effect : Effect, (∃ call, Stands (fun _ => True) (Call ('.' :: effect.name) DigitsAndPoints) text call) →
      Range.finding? ⟨number, text ++ more⟩ effect = Range.finding? ⟨number, text⟩ effect) ∧
    (∀ finding ∈ Escape.findings ⟨number, text⟩, ∃ hatch hatch' finding',
      finding.cause = .sandboxEscape hatch ∧ finding'.cause = .sandboxEscape hatch' ∧
      Escape.findings ⟨number, text ++ more⟩ = [finding'] ∧
      (finding' = finding ∨ EscapeHatch.all.idxOf hatch' < EscapeHatch.all.idxOf hatch)) ∧
    ∀ finding ∈ Playback.findings ⟨number, text⟩,
      (¬ Contains (· = "isPlaying".toList) (text ++ more) →
        Playback.findings ⟨number, text ++ more⟩ = Playback.findings ⟨number, text⟩) ∧
      (Contains (· = "isPlaying".toList) (text ++ more) → Playback.findings ⟨number, text ++ more⟩ = []) := by
  refine ⟨?_, ?_, fun finding reported => Escape.exists_findings_append reported more, fun finding reported => ?_⟩
  · rintro ⟨call, stands⟩
    obtain ⟨first, leftmost⟩ := Pattern.exists_leftmost stands
    exact Sample.findings_append ((Sample.find?_standaloneCall_iff text first).mpr leftmost) more
  · rintro effect ⟨call, stands⟩
    obtain ⟨first, leftmost⟩ := Pattern.exists_leftmost stands
    exact Range.finding?_append ((Range.find?_effectCall_iff effect text first).mpr leftmost) more
  · rw [Playback.findings_append reported more, (Playback.eq_of_mem_findings reported).1,
      ← Playback.occursIn_playbackState_iff]
    exact ⟨fun silent => if_neg silent, fun mentioned => if_pos mentioned⟩

/-- A line that says something of each kind, and goes on with a second sample, a second amount and an escape that is
    listed before the one on the line. -/
theorem LineRule.findings_append_exact_each :
    (∃ call, Stands Sample.StandsAlone (Call ['s'] Quoted) "s('saw').lpf(9).play(eval(1".toList call) ∧
    (∃ call, Stands (fun _ => True) (Call ".lpf".toList DigitsAndPoints) "s('saw').lpf(9).play(eval(1".toList call) ∧
    Sample.findings ⟨1, "s('saw').lpf(9).play(eval(1".toList ++ ")).lpf(200),s('sine');import x".toList⟩ =
      [⟨1, 1, .waveformAsSample "saw".toList .saw⟩] ∧
    Range.finding? ⟨1, "s('saw').lpf(9).play(eval(1".toList ++ ")).lpf(200),s('sine');import x".toList⟩ .lowPass =
      some ⟨1, 9, .belowRange .lowPass (Binary64.nearest ⟨9, 0⟩)⟩ ∧
    Escape.findings ⟨1, "s('saw').lpf(9).play(eval(1".toList⟩ = [⟨1, 22, .sandboxEscape .eval⟩] ∧
    (∃ finding, Escape.findings ⟨1, "s('saw').lpf(9).play(eval(1".toList ++ ")).lpf(200),s('sine');import x".toList⟩ =
      [finding] ∧ finding ≠ ⟨1, 22, .sandboxEscape .eval⟩) ∧
    Playback.findings ⟨1, "s('saw').lpf(9).play(eval(1".toList ++ ")).lpf(200),s('sine');import x".toList⟩ =
      [⟨1, 16, .directPlay⟩] := by
  obtain ⟨sample, range, escape, playback⟩ :=
    LineRule.findings_append_exact 1 "s('saw').lpf(9).play(eval(1".toList ")).lpf(200),s('sine');import x".toList
  have sampled : ∃ call, Stands Sample.StandsAlone (Call ['s'] Quoted) "s('saw').lpf(9).play(eval(1".toList call :=
    ⟨⟨[], "saw".toList, ".lpf(9).play(eval(1".toList⟩, ((Sample.find?_standaloneCall_iff _ _).mp (by decide)).1⟩
  have called : ∃ call, Stands (fun _ => True) (Call ".lpf".toList DigitsAndPoints)
      "s('saw').lpf(9).play(eval(1".toList call :=
    ⟨⟨"s('saw')".toList, "9".toList, ".play(eval(1".toList⟩, ((Range.find?_effectCall_iff .lowPass _ _).mp (by decide)).1⟩
  have escaped : Escape.findings ⟨1, "s('saw').lpf(9).play(eval(1".toList⟩ = [⟨1, 22, .sandboxEscape .eval⟩] := by decide
  have played : Playback.findings ⟨1, "s('saw').lpf(9).play(eval(1".toList⟩ = [⟨1, 16, .directPlay⟩] := by decide
  refine ⟨sampled, called, (sample sampled).trans (by decide), (range .lowPass called).trans (by decide +kernel), escaped,
    ?_, ?_⟩
  · obtain ⟨_, _, finding, _, _, alone, _⟩ := escape _ (escaped ▸ List.mem_singleton_self _)
    refine ⟨finding, alone, ?_⟩
    rintro rfl
    exact absurd alone (by decide +kernel)
  · refine ((playback _ (played ▸ List.mem_singleton_self _)).1 ?_).trans played
    rw [← Playback.occursIn_playbackState_iff]
    decide

end PatternLint
