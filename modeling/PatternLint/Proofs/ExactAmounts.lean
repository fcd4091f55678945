import PatternLint.Proofs.AmountWarnings

/-!
# Warnings and exact values

Amounts and bounds are compared after both have been rounded. As rounding respects order, a warning is right about the
exact values, a value that is beyond a bound without a warning is rounded to the number of the bound, and larger values
are warned about whenever smaller ones are (`Range.warned_exact`).
-/
namespace PatternLint.Range

/-- The line has a warning at a call that says that the amount lies on a side of its range. -/
def Warned (line : Line) (call : Occurrence Text) (effect : Effect) (side : Side) : Prop :=
  ∃ amount, warning line call effect side amount ∈ (findings line).map (·.diagnostic)

theorem mem_diagnostics_iff {line : Line} {diagnostic : Diagnostic} :
    diagnostic ∈ (findings line).map (·.diagnostic) ↔ ∃ effect, Told line effect (some diagnostic) := by
  have listed (effect : Effect) : effect ∈ Effect.all := by cases effect <;> decide
  simp only [told_iff, findings, List.map_filterMap, List.mem_filterMap, listed, true_and]

section
variable {effect : Effect} {line : Line} {call : Occurrence Text} (first : FirstCall effect line.text call)
include first

/-- A call that can be read is warned about when its number is beyond that of the bound. -/
theorem warned_iff (read : Readable call.captured) (side : Side) {amount bound : Binary64}
    (rounds : Binary64.Rounds (exactValue call.captured) amount)
    (roundsBound : Binary64.Rounds (side.bound effect).value bound) :
    Warned line call effect side ↔ side.Beyond bound.extent amount.extent := by
  constructor
  · rintro ⟨_, member⟩
    obtain ⟨other, told⟩ := mem_diagnostics_iff.mp member
    obtain ⟨call', amount', bound', side', first', _, rounds', roundsBound', beyond, same⟩ := told.exists_beyond
    obtain rfl := first.effect_eq first' (Nat.succ_injective (congrArg (·.column) same))
    obtain rfl := first.unique first'
    obtain rfl := side_of_warning same
    obtain rfl := rounds.unique rounds'
    obtain rfl := roundsBound.unique roundsBound'
    exact beyond
  · intro beyond
    exact ⟨amount, mem_diagnostics_iff.mpr ⟨effect, .beyond side first read rounds roundsBound beyond⟩⟩

end

theorem exists_rounds_of_readable {literal : Text} (numerals : ∀ c ∈ literal, Reader.isNumeral c = true)
    (read : Readable literal) : ∃ amount, Binary64.Rounds (exactValue literal) amount := by
  obtain ⟨decimal, parsed⟩ := (Decimal.exists_ofText?_iff numerals).mpr read
  exact ⟨_, Decimal.value_of_ofText? parsed ▸ Binary64.rounds_nearest decimal⟩

/-- What is beyond a bound once both are rounded is beyond it. -/
theorem Side.beyond_of_rounded {side : Side} {value bound : ℚ} {amount number : Binary64}
    (rounds : Binary64.Rounds value amount) (roundsBound : Binary64.Rounds bound number)
    (beyond : side.Beyond number.extent amount.extent) : side.Beyond bound value := by
  cases side with
  | below => exact lt_of_not_ge fun ordered => absurd beyond (not_lt_of_ge (roundsBound.le ordered rounds))
  | above => exact lt_of_not_ge fun ordered => absurd beyond (not_lt_of_ge (rounds.le ordered roundsBound))

/-- What is beyond a bound, but not once both are rounded, is rounded to the same number. -/
theorem Side.eq_of_beyond_of_not_rounded {side : Side} {value bound : ℚ} {amount number : Binary64}
    (rounds : Binary64.Rounds value amount) (roundsBound : Binary64.Rounds bound number) (beyond : side.Beyond bound value)
    (within : ¬ side.Beyond number.extent amount.extent) : amount = number := by
  cases side with
  | below =>
    exact Binary64.extent_injective (le_antisymm (rounds.le (le_of_lt beyond) roundsBound) (not_lt.mp within))
  | above =>
    exact Binary64.extent_injective (le_antisymm (not_lt.mp within) (roundsBound.le (le_of_lt beyond) rounds))

/-- A warning at a call is right about the exact value of its literal. A value beyond a bound without a warning is
    rounded to the same number as the bound. And of two calls of an effect, the one with the larger value is warned to be
    above the range if the other is, and the one with the smaller value to be below it. -/
theorem warned_exact {effect : Effect} {line : Line} {call : Occurrence Text} (first : FirstCall effect line.text call)
    (read : Readable call.captured) :
    (∀ side : Side, Warned line call effect side → side.Beyond (side.bound effect).value (exactValue call.captured)) ∧
    (∀ side : Side, side.Beyond (side.bound effect).value (exactValue call.captured) →
      (∀ side, ¬ Warned line call effect side) →
      ∃ number, Binary64.Rounds (exactValue call.captured) number ∧ Binary64.Rounds (side.bound effect).value number) ∧
    ∀ line' call', FirstCall effect line'.text call' → Readable call'.captured →
      exactValue call.captured ≤ exactValue call'.captured →
      (Warned line call effect .above → Warned line' call' effect .above) ∧
      (Warned line' call' effect .below → Warned line call effect .below) := by
  obtain ⟨amount, rounds⟩ := exists_rounds_of_readable first.digitsAndPoints read
  have bounds (side : Side) := Binary64.rounds_nearest (side.bound effect)
  have judged (side : Side) := warned_iff first read side rounds (bounds side)
  refine ⟨fun side warned => ?_, fun side beyond silent => ?_, fun line' call' first' read' ordered => ?_⟩
  · exact Side.beyond_of_rounded rounds (bounds side) ((judged side).mp warned)
  · have within : ¬ side.Beyond (Binary64.nearest (side.bound effect)).extent amount.extent :=
      fun rounded => silent side ((judged side).mpr rounded)
    have same := Side.eq_of_beyond_of_not_rounded rounds (bounds side) beyond within
    exact ⟨amount, rounds, same ▸ bounds side⟩
  · obtain ⟨amount', rounds'⟩ := exists_rounds_of_readable first'.digitsAndPoints read'
    have judged' (side : Side) := warned_iff first' read' side rounds' (bounds side)
    have kept := rounds.le ordered rounds'
    rw [judged, judged', judged, judged']
    exact ⟨fun above => lt_of_lt_of_le above kept, fun below => lt_of_le_of_lt kept below⟩

/-- A literal above its bound by less than half a step: there is no warning, and one number for both. -/
theorem warned_exact_half_step :
    ∃ call, FirstCall .distort "x.distort( 0.150000000000000001 )".toList call ∧ Readable call.captured ∧
    Effect.distort.greatest.value < exactValue call.captured ∧
    findings ⟨1, "x.distort( 0.150000000000000001 )".toList⟩ = [] ∧
    ∃ number, Binary64.Rounds (exactValue call.captured) number ∧
      Binary64.Rounds Effect.distort.greatest.value number := by
  have first : FirstCall .distort (Line.mk 1 "x.distort( 0.150000000000000001 )".toList).text
      ⟨['x'], "0.150000000000000001".toList, []⟩ := (find?_effectCall_iff _ _ _).mp (by decide +kernel)
  have read : Readable "0.150000000000000001".toList := ⟨⟨'0', by decide, by decide⟩, by decide⟩
  have digits : Nat.ofDigitChars 10 ("0.150000000000000001".toList.filter Char.isDigit) 0 = 150000000000000001 := by decide
  have behind : behindPoint "0.150000000000000001".toList = 18 := by decide
  have above : Effect.distort.greatest.value < exactValue "0.150000000000000001".toList := by
    rw [exactValue, digits, behind]
    norm_num [Effect.greatest, Decimal.value]
  have silent : findings ⟨1, "x.distort( 0.150000000000000001 )".toList⟩ = [] := by decide +kernel
  refine ⟨_, first, read, above, silent, (warned_exact first read).2.1 .above above ?_⟩
  rintro side ⟨amount, member⟩
  rw [silent] at member
  cases member

end PatternLint.Range
