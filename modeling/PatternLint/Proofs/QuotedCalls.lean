import PatternLint.Proofs.ExactAmounts
import PatternLint.Proofs.NumberTexts
import PatternLint.Proofs.RuleFindings

/-!
# Calls that warnings quote

A warning about an amount starts with a call of the effect on the amount. In that call stands no call of another effect,
as it has one opening parenthesis (`Range.eq_of_firstCall_plainCall`), and its amount is read back from its text. So the
quoted call gets the warning that quotes it (`Range.reproduced_exact`).
-/
namespace PatternLint

/-- An opening stands right before the only opening parenthesis of a text. -/
theorem exists_gap_of_opening {word opened front back before after : Text} (inFront : '(' ∉ front) (inBack : '(' ∉ back)
    (opening : Opening word opened) (cut : front ++ '(' :: back = before ++ opened ++ after) :
    ∃ gap, Gap gap ∧ front = before ++ word ++ gap := by
  obtain ⟨gap, blank, rfl⟩ := opening
  have aligned : front ++ '(' :: back = (before ++ word ++ gap) ++ '(' :: after := by simp [cut]
  exact ⟨gap, blank, ((List.append_cons_inj_of_notMem inFront inBack).mp aligned).1⟩

namespace Range

/-! ### Calls without blanks -/

/-- A call of an effect on a text, without blanks. -/
def plainCall (effect : Effect) (number : Text) : Text := '.' :: effect.name ++ '(' :: number ++ [')']

theorem firstCall_plainCall (effect : Effect) {number : Text} (numerals : DigitsAndPoints number number) :
    FirstCall effect (plainCall effect number) ⟨[], number, []⟩ := by
  have blank : Gap [] := by simp [Gap]
  have call : Call ('.' :: effect.name) DigitsAndPoints number (plainCall effect number) :=
    ⟨_, [], number, [], ⟨[], blank, rfl⟩, blank, numerals, blank, by simp [plainCall]⟩
  exact ⟨⟨trivial, _, call, by simp⟩, fun _ _ => Nat.zero_le _⟩

/-- In a plain call on digits and points stands no call of another effect. -/
theorem eq_of_firstCall_plainCall {effect other : Effect} {number : Text} {call : Occurrence Text}
    (numerals : DigitsAndPoints number number) (first : FirstCall other (plainCall effect number) call) :
    other = effect := by
  obtain ⟨_, ⟨opened, gap, given, gap', opening, _, _, _, rfl⟩, parts⟩ := first.1.parts
  have inName : '(' ∉ '.' :: effect.name := by cases effect <;> decide
  have inNumber : '(' ∉ number ++ [')'] := by
    intro member
    rcases List.mem_append.mp member with digit | closing
    · exact absurd (numerals.2.1 '(' digit) (by decide)
    · exact absurd closing (by decide)
  have cut : '.' :: effect.name ++ '(' :: (number ++ [')']) =
      call.before ++ opened ++ (gap ++ given ++ gap' ++ ')' :: call.after) := by
    simpa [plainCall] using parts
  obtain ⟨_, _, name⟩ := exists_gap_of_opening inName inNumber opening cut
  -- the point of the other call is the only one before the parenthesis
  have start : call.before = [] := by
    cases place : call.before with
    | nil => rfl
    | cons c before =>
      have undotted : '.' ∉ effect.name := by cases effect <;> decide
      rw [place] at name
      have inside : effect.name = before ++ '.' :: other.name ++ _ := (List.cons.inj name).2
      exact absurd (inside ▸ by simp) undotted
  exact first.effect_eq (firstCall_plainCall effect numerals) (by rw [start])

/-! ### Warnings that quote -/

theorem diagnostics_eq (line : Line) :
    (findings line).map (·.diagnostic) = Effect.all.filterMap fun effect => (finding? line effect).map (·.diagnostic) := by
  rw [findings, List.map_filterMap]

/-- A line that calls one effect gets what is told of that effect. -/
theorem diagnostics_of_told {line : Line} {effect : Effect} {diagnostic : Diagnostic}
    (told : Told line effect (some diagnostic)) (alone : ∀ other call, FirstCall other line.text call → other = effect) :
    (findings line).map (·.diagnostic) = [diagnostic] := by
  have each (other : Effect) :
      (finding? line other).map (·.diagnostic) = if other = effect then some diagnostic else none := by
    split
    · next same => exact (told_iff line other _).mp (same ▸ told)
    · next different => exact (told_iff line other _).mp (.uncalled fun call first => different (alone other call first))
  simp only [diagnostics_eq, each]
  cases effect <;> rfl

theorem effectCall_prefix_wording (effect : Effect) (side : Side) (amount : Binary64) :
    Finding.effectCall effect amount <+: wording effect side amount := by
  rw [wording]
  exact ⟨' ' :: side.words.toList ++ ' ' :: (side.bound effect).toText, by simp [Finding.effectCall]⟩

theorem exists_of_mem_findings {line : Line} {finding : Finding} (found : finding ∈ findings line) :
    ∃ effect side decimal, finding.cause = Side.cause side effect (Binary64.nearest decimal) ∧
      side.Beyond (Binary64.nearest (side.bound effect)).extent (Binary64.nearest decimal).extent := by
  obtain ⟨_, reports, _⟩ := @LineRule.reports_of_mem .range _ _ found
  obtain ⟨number, column, cause⟩ := finding
  cases reports with
  | below _ _ beyond => exact ⟨_, .below, _, rfl, (Binary64.below_iff _ _).mp beyond⟩
  | above _ _ beyond => exact ⟨_, .above, _, rfl, (Binary64.below_iff _ _).mp beyond⟩

/-- A call of an effect on the text of a number beyond a bound gets the warning that quotes the call. -/
theorem diagnostics_effectCall {effect : Effect} {side : Side} {units : Nat} {x : ℚ}
    (rounds : Binary64.Rounds x (.finite units))
    (beyond : side.Beyond (Binary64.nearest (side.bound effect)).extent (Binary64.finite units).extent) (number : Nat) :
    (findings ⟨number, Finding.effectCall effect (.finite units)⟩).map (·.diagnostic) =
      [⟨number, 1, wording effect side (.finite units), .warning⟩] := by
  have numerals : DigitsAndPoints (Binary64.finite units).toText _ := (Decimal.writtenAs_toText _).digitsAndPoints
  have readable : Readable (Binary64.finite units).toText := Decimal.readable_toText _
  have first := firstCall_plainCall effect numerals
  have told : Told ⟨number, Finding.effectCall effect (.finite units)⟩ effect _ :=
    .beyond side first readable rounds.toText (Binary64.rounds_nearest _) beyond
  exact diagnostics_of_told told fun other call => eq_of_firstCall_plainCall numerals

/-- Each warning is about an amount on a side of the range of an effect. If the amount is finite, the call that the message
    starts with gets, as a line of its own, a single warning with the same message at its start, and the amount lies beyond
    the bound also as they are printed. -/
theorem reproduced_exact {line : Line} {finding : Finding} (found : finding ∈ findings line) :
    ∃ effect side amount, finding.cause = Side.cause side effect amount ∧ finding.message = wording effect side amount ∧
      ∀ units, amount = .finite units →
        plainCall effect amount.toText <+: finding.message ∧
        (∀ number, (findings ⟨number, plainCall effect amount.toText⟩).map (·.diagnostic) =
          [⟨number, 1, finding.message, .warning⟩]) ∧
        Readable amount.toText ∧ Readable (side.bound effect).toText ∧
        side.Beyond (exactValue (side.bound effect).toText) (exactValue amount.toText) := by
  obtain ⟨effect, side, decimal, cause, beyond⟩ := exists_of_mem_findings found
  have message : finding.message = wording effect side (Binary64.nearest decimal) := by
    rw [← message_eq finding.line finding.column, ← cause]
  refine ⟨effect, side, Binary64.nearest decimal, cause, message, fun units finite => ?_⟩
  have rounds := Binary64.rounds_nearest decimal
  rw [finite] at rounds beyond message ⊢
  rw [message]
  refine ⟨effectCall_prefix_wording effect side _, diagnostics_effectCall rounds beyond, Decimal.readable_toText _,
    Decimal.readable_toText _, ?_⟩
  rw [Decimal.exactValue_toText]
  exact Side.beyond_of_rounded rounds.toText (Binary64.rounds_nearest _) beyond

/-- The number right above a bound. -/
theorem reproduced_exact_next_number :
    ⟨1, 2, .aboveRange .distort (Binary64.nearest ⟨15000000000000002, 17⟩)⟩ ∈
      findings ⟨1, "x.distort( 0.1500000000000000150 )".toList⟩ ∧
    (findings ⟨7, ".distort(0.15000000000000002)".toList⟩).map (·.diagnostic) =
      [⟨7, 1, ".distort(0.15000000000000002) exceeds recommended maximum of 0.15".toList, .warning⟩] ∧
    exactValue "0.15".toList < exactValue "0.15000000000000002".toList := by
  have found : ⟨1, 2, .aboveRange .distort (Binary64.nearest ⟨15000000000000002, 17⟩)⟩ ∈
      findings ⟨1, "x.distort( 0.1500000000000000150 )".toList⟩ := by decide +kernel
  refine ⟨found, ?_⟩
  obtain ⟨effect, side, amount, cause, message, reproduced⟩ := reproduced_exact found
  cases side with
  | below => cases cause
  | above =>
    obtain ⟨rfl, rfl⟩ := Cause.aboveRange.inj cause
    have printed : (Binary64.nearest ⟨15000000000000002, 17⟩).toText = "0.15000000000000002".toList := by decide +kernel
    cases finite : Binary64.nearest ⟨15000000000000002, 17⟩ with
    | infinite => exact absurd finite (by decide +kernel)
    | finite units =>
      obtain ⟨_, again, _, _, beyond⟩ := reproduced units finite
      rw [message, wording, printed] at again
      rw [printed] at beyond
      exact ⟨again 7, beyond⟩

end Range
end PatternLint
