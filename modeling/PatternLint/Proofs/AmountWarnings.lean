import Mathlib.Tactic.NormNum
import PatternLint.Proofs.Numerals

/-!
# Warnings about amounts

Each effect of the table is looked at on its own: its leftmost call on digits and points is the one that counts, and it
is warned about when the literal can be read and its number lies beyond the number of a bound (`Range.Told`). So the
warnings of a line are what is told of the effects, in the order of the table, no two of them at one place
(`Range.amounts_exact`).
-/
namespace PatternLint.Range

/-! ### Sides of a range -/

inductive Side where
  | below | above
  deriving DecidableEq

namespace Side

def bound : Side → Effect → Decimal
  | below => Effect.least
  | above => Effect.greatest

def words : Side → String
  | below => "is below recommended minimum of"
  | above => "exceeds recommended maximum of"

/-- What lies beyond a bound on a side. -/
def Beyond {α : Type} [LT α] : Side → α → α → Prop
  | below, bound, amount => amount < bound
  | above, bound, amount => bound < amount

def cause : Side → Effect → Binary64 → Cause
  | below => .belowRange
  | above => .aboveRange

end Side

/-! ### What is told of an effect -/

/-- The leftmost call of an effect on digits and points. -/
def FirstCall (effect : Effect) (text : Text) (call : Occurrence Text) : Prop :=
  Leftmost (fun _ => True) (Call ('.' :: effect.name) DigitsAndPoints) text call

/-- An effect with its amount, and the bound that the amount violates. -/
def wording (effect : Effect) (side : Side) (amount : Binary64) : Text :=
  '.' :: effect.name ++ '(' :: amount.toText ++ ") ".toList ++ side.words.toList ++ ' ' :: (side.bound effect).toText

/-- A warning at the point of a call. -/
def warning (line : Line) (call : Occurrence Text) (effect : Effect) (side : Side) (amount : Binary64) : Diagnostic :=
  ⟨line.number, call.before.length + 1, wording effect side amount, .warning⟩

/-- What is told of an effect on a line. -/
inductive Told (line : Line) (effect : Effect) : Option Diagnostic → Prop
  | uncalled : (∀ call, ¬ FirstCall effect line.text call) → Told line effect none
  /-- Later calls do not count, so nothing is told when the first cannot be read. -/
  | unreadable {call : Occurrence Text} : FirstCall effect line.text call → ¬ Readable call.captured →
      Told line effect none
  | within {call : Occurrence Text} {amount : Binary64} : FirstCall effect line.text call → Readable call.captured →
      Binary64.Rounds (exactValue call.captured) amount →
      (∀ (side : Side) (bound : Binary64), Binary64.Rounds (side.bound effect).value bound →
        ¬ side.Beyond bound.extent amount.extent) → Told line effect none
  | beyond {call : Occurrence Text} {amount bound : Binary64} (side : Side) : FirstCall effect line.text call →
      Readable call.captured → Binary64.Rounds (exactValue call.captured) amount →
      Binary64.Rounds (side.bound effect).value bound → side.Beyond bound.extent amount.extent →
      Told line effect (some (warning line call effect side amount))

theorem effectCall_spells (effect : Effect) :
    (effectCall effect).Spells (fun _ => True) (Call ('.' :: effect.name) DigitsAndPoints) where
  mayFollow_iff _ := by simp [effectCall]
  read_iff := Reader.call_iff Reader.numeral_readsArgument

theorem find?_effectCall_iff (effect : Effect) (text : Text) (call : Occurrence Text) :
    (effectCall effect).find? text = some call ↔ FirstCall effect text call :=
  Pattern.find?_eq_some_iff_leftmost (effectCall_spells effect) text call

theorem FirstCall.unique {effect : Effect} {text : Text} {call other : Occurrence Text}
    (first : FirstCall effect text call) (second : FirstCall effect text other) : call = other :=
  (effectCall_spells effect).leftmost_unique first second

theorem FirstCall.digitsAndPoints {effect : Effect} {text : Text} {call : Occurrence Text}
    (first : FirstCall effect text call) : ∀ c ∈ call.captured, Reader.isNumeral c = true := by
  obtain ⟨_, ⟨_, _, _, _, _, _, ⟨_, numerals, _⟩, _, _⟩, _⟩ := first.1.parts
  exact numerals

theorem value_least_le_greatest (effect : Effect) : effect.least.value ≤ effect.greatest.value := by
  cases effect <;> norm_num [Effect.least, Effect.greatest, Decimal.value]

/-- The number of a bound is written as the bound is. -/
theorem toText_nearest_bound (side : Side) (effect : Effect) :
    (Binary64.nearest (side.bound effect)).toText = (side.bound effect).toText := by
  cases side <;> cases effect <;> decide +kernel

/-! ### One effect -/

/-- An amount is judged by the sides of its range on which it lies. -/
theorem judge_cases (effect : Effect) (amount : Binary64) :
    (∃ side : Side, judge effect amount = some (side.cause effect amount) ∧
      side.Beyond (Binary64.nearest (side.bound effect)).extent amount.extent) ∨
    judge effect amount = none ∧
      ∀ side : Side, ¬ side.Beyond (Binary64.nearest (side.bound effect)).extent amount.extent := by
  unfold judge
  split
  · next below => exact .inl ⟨.below, rfl, (Binary64.below_iff _ _).mp below⟩
  · next notBelow =>
    split
    · next above => exact .inl ⟨.above, rfl, (Binary64.below_iff _ _).mp above⟩
    · next notAbove =>
      refine .inr ⟨rfl, fun side => ?_⟩
      cases side with
      | below => exact mt (Binary64.below_iff _ _).mpr notBelow
      | above => exact mt (Binary64.below_iff _ _).mpr notAbove

theorem Side.severity_cause (side : Side) (effect : Effect) (amount : Binary64) :
    (side.cause effect amount).severity = .warning := by
  cases side <;> rfl

theorem message_eq (line column : Nat) (effect : Effect) (side : Side) (amount : Binary64) :
    (Finding.mk line column (side.cause effect amount)).message = wording effect side amount := by
  rw [wording, ← toText_nearest_bound]
  cases side with
  | below =>
    rw [Finding.message, Side.cause, Side.words, Side.bound]
    dsimp only
    simp [Finding.effectCall]
  | above =>
    rw [Finding.message, Side.cause, Side.words, Side.bound]
    dsimp only
    simp [Finding.effectCall]

theorem FirstCall.diagnostic_eq_warning {effect : Effect} {line : Line} {call : Occurrence Text}
    (first : FirstCall effect line.text call) (side : Side) (amount : Binary64) :
    (Finding.mk line.number (line.text.columnAt (Text.byteLength call.before)) (side.cause effect amount)).diagnostic =
      warning line call effect side amount := by
  rw [first.1.columnAt_eq, Finding.diagnostic, message_eq, Side.severity_cause]
  rfl

theorem told_finding? (line : Line) (effect : Effect) :
    Told line effect ((finding? line effect).map (·.diagnostic)) := by
  unfold finding?
  split
  · next nothing =>
    refine .uncalled fun call first => ?_
    rw [(find?_effectCall_iff effect line.text call).mpr first] at nothing
    cases nothing
  · next call found =>
    have first := (find?_effectCall_iff effect line.text call).mp found
    have readable := Decimal.exists_ofText?_iff first.digitsAndPoints
    split
    · next unread =>
      refine .unreadable first fun canBeRead => ?_
      obtain ⟨amount, read⟩ := readable.mpr canBeRead
      cases unread.symm.trans read
    · next amount read =>
      have canBeRead := readable.mp ⟨amount, read⟩
      have rounds := Binary64.rounds_nearest amount
      rw [Decimal.value_of_ofText? read] at rounds
      rcases judge_cases effect (Binary64.nearest amount) with ⟨side, judged, beyond⟩ | ⟨judged, within⟩
      · rw [judged, Option.map_some, Option.map_some, first.diagnostic_eq_warning]
        exact .beyond side first canBeRead rounds (Binary64.rounds_nearest _) beyond
      · rw [judged]
        refine .within first canBeRead rounds fun side bound roundsBound => ?_
        rw [roundsBound.unique (Binary64.rounds_nearest _)]
        exact within side

/-- An amount is beyond one bound of a range at most. -/
theorem Side.eq_of_beyond {effect : Effect} {amount bound bound' : Binary64} {side side' : Side}
    (rounds : Binary64.Rounds (side.bound effect).value bound) (rounds' : Binary64.Rounds (side'.bound effect).value bound')
    (beyond : side.Beyond bound.extent amount.extent) (beyond' : side'.Beyond bound'.extent amount.extent) :
    side = side' := by
  cases side with
  | below =>
    cases side' with
    | below => rfl
    | above =>
      have ordered := rounds.le (value_least_le_greatest effect) rounds'
      exact absurd (lt_trans beyond (lt_of_le_of_lt ordered beyond')) (lt_irrefl _)
  | above =>
    cases side' with
    | below =>
      have ordered := rounds'.le (value_least_le_greatest effect) rounds
      exact absurd (lt_trans beyond' (lt_of_le_of_lt ordered beyond)) (lt_irrefl _)
    | above => rfl

/-- What is told of an effect is fixed. -/
theorem Told.unique {line : Line} {effect : Effect} {one other : Option Diagnostic} (told : Told line effect one)
    (told' : Told line effect other) : one = other := by
  cases told with
  | uncalled none =>
    cases told' with
    | beyond _ first _ _ _ _ => exact absurd first (none _)
    | _ => rfl
  | unreadable first unread =>
    cases told' with
    | beyond _ first' read _ _ _ => exact absurd read (first.unique first' ▸ unread)
    | _ => rfl
  | within first read rounds within =>
    cases told' with
    | beyond side first' _ rounds' roundsBound beyond =>
      cases first.unique first'
      cases rounds.unique rounds'
      exact absurd beyond (within side _ roundsBound)
    | _ => rfl
  | beyond side first read rounds roundsBound beyond =>
    cases told' with
    | uncalled none => exact absurd first (none _)
    | unreadable first' unread => exact absurd read (first'.unique first ▸ unread)
    | within first' _ rounds' within =>
      cases first.unique first'
      cases rounds.unique rounds'
      exact absurd beyond (within side _ roundsBound)
    | beyond side' first' _ rounds' roundsBound' beyond' =>
      cases first.unique first'
      cases rounds.unique rounds'
      cases Side.eq_of_beyond roundsBound roundsBound' beyond beyond'
      rfl

theorem told_iff (line : Line) (effect : Effect) (outcome : Option Diagnostic) :
    Told line effect outcome ↔ (finding? line effect).map (·.diagnostic) = outcome := by
  constructor
  · exact (told_finding? line effect).unique
  · rintro rfl
    exact told_finding? line effect

theorem Told.exists_beyond {line : Line} {effect : Effect} {diagnostic : Diagnostic}
    (told : Told line effect (some diagnostic)) : ∃ call amount bound side, FirstCall effect line.text call ∧
      Readable call.captured ∧ Binary64.Rounds (exactValue call.captured) amount ∧
      Binary64.Rounds (Side.bound side effect).value bound ∧ side.Beyond bound.extent amount.extent ∧
      diagnostic = warning line call effect side amount := by
  cases told with
  | beyond side first read rounds roundsBound beyond =>
    exact ⟨_, _, _, side, first, read, rounds, roundsBound, beyond, rfl⟩

/-- A warning says on which side of the range the amount lies: it ends with the bound there, and the two differ. -/
theorem side_of_warning {line : Line} {call other : Occurrence Text} {effect : Effect} {side side' : Side}
    {amount amount' : Binary64} (same : warning line call effect side amount = warning line other effect side' amount') :
    side = side' := by
  have messages : wording effect side amount = wording effect side' amount' := congrArg (·.message) same
  have ends (side : Side) (amount : Binary64) :
      ' ' :: (side.bound effect).toText <:+ wording effect side amount := List.suffix_append _ _
  have either := List.suffix_or_suffix_of_suffix (ends side amount) (messages ▸ ends side' amount')
  cases side with
  | below =>
    cases side' with
    | below => rfl
    | above => exact absurd either (by cases effect <;> decide +kernel)
  | above =>
    cases side' with
    | below => exact absurd either (by cases effect <;> decide +kernel)
    | above => rfl

/-- No amount is below zero, so only the effects with a larger bound are told to be below it. -/
theorem eq_of_beyond_below {effect : Effect} {literal : Text} {amount bound : Binary64}
    (rounds : Binary64.Rounds (exactValue literal) amount) (roundsBound : Binary64.Rounds effect.least.value bound)
    (beyond : amount.extent < bound.extent) : effect = .resonance ∨ effect = .lowPass := by
  by_contra other
  have zero : effect.least.value = 0 := by
    cases effect with
    | resonance => simp at other
    | lowPass => simp at other
    | _ => norm_num [Effect.least, Decimal.value]
  have ordered := roundsBound.le (zero ▸ exactValue_nonneg literal) rounds
  exact absurd beyond (not_lt_of_ge ordered)

/-! ### Places -/

/-- A word that is called is known from the text behind it. -/
theorem eq_of_openings {word other part part' rest rest' : Text} (own : ∀ c ∈ word, (!isBlank c && c ≠ '(') = true)
    (own' : ∀ c ∈ other, (!isBlank c && c ≠ '(') = true) (opening : Opening word part) (opening' : Opening other part')
    (same : part ++ rest = part' ++ rest') : word = other := by
  have front {word part rest : Text} (own : ∀ c ∈ word, (!isBlank c && c ≠ '(') = true) (opening : Opening word part) :
      (part ++ rest).takeWhile (fun c => !isBlank c && c ≠ '(') = word := by
    obtain ⟨gap, blank, rfl⟩ := opening
    rw [List.append_assoc, List.append_assoc]
    refine (Text.takeWhile_append_of_stop own fun c head => ?_).1
    rcases Gap.head_cases blank head with blank | rfl
    · rw [blank]
      rfl
    · decide
  exact (front own opening).symm.trans (same ▸ front own' opening')

/-- At one place one effect is called at most. -/
theorem FirstCall.effect_eq {effect other : Effect} {text : Text} {call call' : Occurrence Text}
    (first : FirstCall effect text call) (first' : FirstCall other text call')
    (place : call.before.length = call'.before.length) : effect = other := by
  obtain ⟨_, ⟨opened, _, _, _, opening, _, _, _, rfl⟩, parts⟩ := first.1.parts
  obtain ⟨_, ⟨opened', _, _, _, opening', _, _, _, rfl⟩, parts'⟩ := first'.1.parts
  have own (effect : Effect) : ('.' :: effect.name).all (fun c => !isBlank c && c ≠ '(') = true := by
    cases effect <;> decide
  have same := parts.symm.trans parts'
  simp only [List.append_assoc] at same
  have names := eq_of_openings (List.all_eq_true.mp (own effect)) (List.all_eq_true.mp (own other)) opening opening'
    (List.append_inj same place).2
  revert names
  cases effect <;> cases other <;> decide

/-! ### A line -/

/-- What is warned about on a line is what is told of each effect, whatever is told of the others, in the order of the
    table. No two warnings stand at one place, and only two effects are told to be below their range. -/
theorem amounts_exact (line : Line) :
    ∃ told : Effect → Option Diagnostic,
      (∀ effect outcome, Told line effect outcome ↔ told effect = outcome) ∧
      (findings line).map (·.diagnostic) = Effect.all.filterMap told ∧
      ((findings line).map (·.diagnostic)).Pairwise (·.column ≠ ·.column) ∧
      ∀ effect call amount, told effect = some (warning line call effect .below amount) →
        effect = .resonance ∨ effect = .lowPass := by
  have listed : (findings line).map (·.diagnostic) =
      Effect.all.filterMap fun effect => (finding? line effect).map (·.diagnostic) := by
    rw [findings, List.map_filterMap]
  refine ⟨fun effect => (finding? line effect).map (·.diagnostic), told_iff line, listed, ?_, ?_⟩
  · rw [listed, List.pairwise_filterMap]
    refine (show Effect.all.Nodup by decide).imp fun {effect other} different one told two told' column => ?_
    obtain ⟨call, _, _, _, first, _, _, _, _, rfl⟩ := ((told_iff line effect _).mpr told).exists_beyond
    obtain ⟨call', _, _, _, first', _, _, _, _, rfl⟩ := ((told_iff line other _).mpr told').exists_beyond
    exact different (first.effect_eq first' (Nat.succ_injective column))
  · intro effect call amount told
    obtain ⟨_, _, _, side, _, _, rounds, roundsBound, beyond, same⟩ := ((told_iff line effect _).mpr told).exists_beyond
    obtain rfl := side_of_warning same
    exact eq_of_beyond_below rounds roundsBound beyond

end PatternLint.Range
