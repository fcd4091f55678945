import PatternLint.Proofs.Calls
import PatternLint.Lint

/-!
# What the line rules look for

When each of the rules about single lines that report errors says nothing, in terms of the forms that a line
contains, and what each rule about single lines says when it says something (`Sample.mem_findings_iff`,
`Escape.mem_findings_iff`, `Range.finding?_eq_some_iff`, `Playback.mem_findings_iff`).
-/
namespace PatternLint

theorem map_unit_eq_some_iff {found : Option Text} {captured : Unit} {after : Text} :
    (found.map fun rest => ((), rest)) = some (captured, after) ↔ found = some after := by
  cases found <;> simp

theorem literal_iff {word text rest : Text} :
    Reader.literal word text = some rest ↔ ∃ part, part = word ∧ text = part ++ rest := by
  simp [Reader.literal_eq_some_iff]

/-! ### Escapes from the sandbox -/

namespace EscapeHatch

/-- What a construct looks like: a statement word and at least one blank, a word that is called, an object whose
    member is taken, or a class name. -/
def Written : EscapeHatch → Text → Prop
  | importing => fun part => ∃ gap, Gap gap ∧ gap ≠ [] ∧ part = "import".toList ++ gap
  | require => Opening "require".toList
  | eval => Opening "eval".toList
  | function => Opening "Function".toList
  | window => (· = "window.".toList)
  | document => (· = "document.".toList)
  | fetch => Opening "fetch".toList
  | httpRequest => (· = "XMLHttpRequest".toList)

/-- The part of a construct that is read: of several blanks behind a statement word only the first. -/
def Begun : EscapeHatch → Text → Prop
  | importing => fun part => ∃ blank, isBlank blank = true ∧ part = "import".toList ++ [blank]
  | hatch => hatch.Written

theorem spaced_iff {word text rest : Text} :
    spaced word text = some rest ↔
      ∃ part, (∃ blank, isBlank blank = true ∧ part = word ++ [blank]) ∧ text = part ++ rest := by
  constructor
  · intro read
    unfold spaced at read
    split at read
    · next c rest' start =>
      split at read
      · next blank =>
        simp only [Option.some.injEq] at read
        subst read
        exact ⟨word ++ [c], ⟨c, blank, rfl⟩, by simpa using Reader.literal_eq_some_iff.mp start⟩
      · cases read
    · cases read
  · rintro ⟨_, ⟨c, blank, rfl⟩, rfl⟩
    have start : Reader.literal word (word ++ [c] ++ rest) = some (c :: rest) :=
      Reader.literal_eq_some_iff.mpr (by simp)
    rw [spaced, start]
    simp [blank]

theorem read_iff (hatch : EscapeHatch) {text rest : Text} :
    hatch.read text = some rest ↔ ∃ part, hatch.Begun part ∧ text = part ++ rest := by
  cases hatch with
  | importing => exact spaced_iff
  | require => exact Reader.opening_iff
  | eval => exact Reader.opening_iff
  | function => exact Reader.opening_iff
  | window => exact literal_iff
  | document => exact literal_iff
  | fetch => exact Reader.opening_iff
  | httpRequest => exact literal_iff

theorem pattern_spells (hatch : EscapeHatch) : hatch.pattern.Spells (fun _ => True) (fun _ => hatch.Begun) where
  mayFollow_iff _ := by simp [pattern]
  read_iff := map_unit_eq_some_iff.trans hatch.read_iff

theorem written_of_begun (hatch : EscapeHatch) {part : Text} (begun : hatch.Begun part) : hatch.Written part := by
  cases hatch with
  | importing =>
    obtain ⟨c, blank, rfl⟩ := begun
    exact ⟨[c], by simpa [Gap] using blank, by simp, rfl⟩
  | _ => exact begun

theorem exists_begun (hatch : EscapeHatch) {part : Text} (written : hatch.Written part) :
    ∃ start rest, hatch.Begun start ∧ part = start ++ rest := by
  cases hatch with
  | importing =>
    obtain ⟨gap, blanks, some_blank, rfl⟩ := written
    obtain ⟨c, more, rfl⟩ := List.exists_cons_of_ne_nil some_blank
    exact ⟨_, more, ⟨c, blanks c (by simp), rfl⟩, by simp⟩
  | _ => exact ⟨part, [], written, by simp⟩

theorem contains_begun_iff (hatch : EscapeHatch) (text : Text) :
    Contains hatch.Begun text ↔ Contains hatch.Written text := by
  constructor
  · rintro ⟨before, part, after, begun, parts⟩
    exact ⟨before, part, after, hatch.written_of_begun begun, parts⟩
  · rintro ⟨before, part, after, written, parts⟩
    obtain ⟨start, rest, begun, rfl⟩ := hatch.exists_begun written
    exact ⟨before, start, rest ++ after, begun, by simp [parts]⟩

end EscapeHatch

theorem EscapeHatch.mem_all (hatch : EscapeHatch) : hatch ∈ EscapeHatch.all := by cases hatch <;> decide

namespace Escape

theorem mem_meet_iff (met : List EscapeHatch) (text : Text) (hatch : EscapeHatch) :
    hatch ∈ meet met text ↔ hatch ∈ met ∨ ∃ part after, hatch.Begun part ∧ text = part ++ after := by
  have front : (hatch.read text).isSome = true ↔ ∃ part after, hatch.Begun part ∧ text = part ++ after := by
    simp only [Option.isSome_iff_exists, hatch.read_iff]
    exact exists_comm
  rw [meet, List.mem_filter, Bool.or_eq_true, List.contains_iff_mem, front]
  exact and_iff_right hatch.mem_all

/-- The search for all constructs at once meets those that the text contains. -/
theorem mem_meetAll_iff (met : List EscapeHatch) (text : Text) (hatch : EscapeHatch) :
    hatch ∈ meetAll met text ↔ hatch ∈ met ∨ Contains hatch.Begun text := by
  induction text generalizing met with
  | nil =>
    have nowhere : ¬ Contains hatch.Begun [] := by
      rintro ⟨before, part, after, begun, parts⟩
      obtain ⟨rfl, rfl⟩ : part = [] ∧ after = [] := by simp_all
      have read : hatch.read [] = some [] := hatch.read_iff.mpr ⟨[], begun, rfl⟩
      obtain ⟨front, some_front, cut⟩ := EscapeHatch.read_advances read
      exact some_front (List.append_eq_nil_iff.mp cut.symm).1
    rw [meetAll, or_iff_left nowhere]
  | cons c text ih => rw [meetAll, ih, mem_meet_iff, or_assoc, contains_cons_iff]

/-- Both searches agree: a construct is met just when it is found alone. -/
theorem mem_meetAll_iff_find? (text : Text) (hatch : EscapeHatch) :
    hatch ∈ meetAll [] text ↔ ∃ place, hatch.pattern.find? text = some place := by
  rw [mem_meetAll_iff, or_iff_right List.not_mem_nil, ← Pattern.occursIn_iff_contains hatch.pattern_spells,
    Pattern.occursIn, Option.isSome_iff_exists]

theorem exists_find?_of_firstHatch? {text : Text} {hatch : EscapeHatch} (first : firstHatch? text = some hatch) :
    ∃ place, hatch.pattern.find? text = some place ∧ offset hatch text = Text.byteLength place.before := by
  have met := List.contains_iff_mem.mp (List.find?_some first)
  obtain ⟨place, found⟩ := (mem_meetAll_iff_find? text hatch).mp met
  exact ⟨place, found, by rw [offset, found]⟩

theorem firstHatch?_eq_none_iff (text : Text) :
    firstHatch? text = none ↔ ∀ hatch : EscapeHatch, ¬ Contains hatch.Written text := by
  simp only [firstHatch?, List.find?_eq_none, List.contains_iff_mem, mem_meetAll_iff, or_iff_right List.not_mem_nil,
    EscapeHatch.contains_begun_iff]
  exact ⟨fun nothing hatch => nothing hatch hatch.mem_all, fun nothing hatch _ => nothing hatch⟩

/-- No escape is reported just on the lines that contain no construct of the list. -/
theorem findings_eq_nil_iff (line : Line) :
    findings line = [] ↔ ∀ hatch : EscapeHatch, ¬ Contains hatch.Written line.text := by
  rw [← firstHatch?_eq_none_iff, findings]
  cases firstHatch? line.text <;> simp

theorem findings_eq_singleton {line : Line} {hatch : EscapeHatch} {place : Occurrence Unit}
    (first : firstHatch? line.text = some hatch) (found : hatch.pattern.find? line.text = some place) :
    findings line = [⟨line.number, line.text.columnAt (Text.byteLength place.before), .sandboxEscape hatch⟩] := by
  simp only [findings, first, offset, found]

/-- The construct that is reported, and its place. -/
theorem mem_findings_iff {line : Line} {finding : Finding} :
    finding ∈ findings line ↔
      ∃ hatch place, firstHatch? line.text = some hatch ∧ hatch.pattern.find? line.text = some place ∧
        finding = ⟨line.number, line.text.columnAt (Text.byteLength place.before), .sandboxEscape hatch⟩ := by
  constructor
  · intro reported
    cases first : firstHatch? line.text with
    | none =>
      rw [findings, first] at reported
      cases reported
    | some hatch =>
      obtain ⟨place, found, _⟩ := exists_find?_of_firstHatch? first
      rw [findings_eq_singleton first found] at reported
      exact ⟨hatch, place, rfl, found, List.mem_singleton.mp reported⟩
  · rintro ⟨hatch, place, first, found, rfl⟩
    rw [findings_eq_singleton first found]
    exact List.mem_singleton_self _

end Escape

/-! ### Waveforms as samples -/

/-- The name of a sample without a variant behind a slash, in lower case. -/
def sampleRoot (argument : Text) : Text := argument.lowercase.takeWhile (· ≠ '/')

/-- A text is a word or continues it with a separator just when the word is what stands before the separator. -/
theorem takeWhile_ne_eq_iff {separator : Char} {word : Text} (free : separator ∉ word) (text : Text) :
    text.takeWhile (· ≠ separator) = word ↔ text = word ∨ word ++ [separator] <+: text := by
  have kept : ∀ c ∈ word, decide (c ≠ separator) = true := fun c member =>
    decide_eq_true fun same => free (same ▸ member)
  constructor
  · rintro rfl
    cases rest : text.dropWhile (· ≠ separator) with
    | nil =>
      left
      exact (List.takeWhile_eq_self_iff.mpr (List.dropWhile_eq_nil_iff.mp rest)).symm
    | cons c after =>
      right
      have stopped : c = separator := by
        have := List.head?_dropWhile_not (· ≠ separator) text
        rw [rest] at this
        simpa using this
      refine ⟨after, ?_⟩
      subst stopped
      have whole := List.takeWhile_append_dropWhile (p := (· ≠ c)) (l := text)
      rw [rest] at whole
      simpa using whole
  · rintro (rfl | ⟨after, rfl⟩)
    · exact List.takeWhile_eq_self_iff.mpr kept
    · rw [List.append_assoc, List.takeWhile_append_of_pos kept]
      simp

theorem Waveform.named_iff (wave : Waveform) (argument : Text) :
    wave.named argument = true ↔ sampleRoot argument = wave.name := by
  have free : '/' ∉ wave.name := by cases wave <;> decide
  rw [sampleRoot, takeWhile_ne_eq_iff free]
  simp [named]

theorem Waveform.mem_all (wave : Waveform) : wave ∈ Waveform.all := by cases wave <;> decide

theorem Waveform.name_injective : Function.Injective Waveform.name := by
  intro wave other
  cases wave <;> cases other <;> decide

/-- An argument names at most one waveform. -/
theorem Waveform.eq_of_named {argument : Text} {wave other : Waveform} (named : wave.named argument = true)
    (named' : other.named argument = true) : wave = other :=
  name_injective (((wave.named_iff argument).mp named).symm.trans ((other.named_iff argument).mp named'))

theorem Waveform.filter_named {argument : Text} {wave : Waveform} (named : wave.named argument = true) :
    Waveform.all.filter (·.named argument) = [wave] := by
  have alone : Waveform.all.filter (·.named argument) = Waveform.all.filter (· = wave) := by
    refine List.filter_congr fun other _ => ?_
    rw [Bool.eq_iff_iff, decide_eq_true_iff]
    exact ⟨fun named' => eq_of_named named' named, fun same => same ▸ named⟩
  rw [alone]
  cases wave <;> decide

namespace Sample

/-- No dot, no letter or digit of ASCII and no underscore stands right before. -/
def StandsAlone (last : Option Char) : Prop := ∀ c, last = some c → c ≠ '.' ∧ c.isAlphanum = false ∧ c ≠ '_'

/-- A standalone call of `s` on a quoted argument, and none to its left. -/
def FirstCall (text : Text) (o : Occurrence Text) : Prop := Leftmost StandsAlone (Call ['s'] Quoted) text o

theorem standaloneCall_spells : standaloneCall.Spells StandsAlone (Call ['s'] Quoted) where
  mayFollow_iff last := by
    cases last <;> simp [standaloneCall, StandsAlone, continuesWord, and_assoc]
  read_iff := Reader.call_iff Reader.quoted_readsArgument

theorem find?_standaloneCall_iff (text : Text) (o : Occurrence Text) :
    standaloneCall.find? text = some o ↔ FirstCall text o :=
  Pattern.find?_eq_some_iff_leftmost standaloneCall_spells text o

/-- The waveform that is reported is named by the first standalone call. -/
theorem mem_findings_iff {line : Line} {finding : Finding} :
    finding ∈ findings line ↔
      ∃ call, FirstCall line.text call ∧ ∃ wave : Waveform, sampleRoot call.captured = wave.name ∧ finding =
        ⟨line.number, line.text.columnAt (Text.byteLength call.before), .waveformAsSample call.captured wave⟩ := by
  simp only [← find?_standaloneCall_iff, ← Waveform.named_iff, findings]
  cases standaloneCall.find? line.text with
  | none => simp
  | some call =>
    simp only [List.mem_map, List.mem_filter, Waveform.mem_all, true_and, Option.some.injEq, exists_eq_left',
      eq_comm (a := finding)]

theorem findings_eq_singleton {line : Line} {call : Occurrence Text} {wave : Waveform}
    (first : FirstCall line.text call) (named : sampleRoot call.captured = wave.name) :
    findings line =
      [⟨line.number, line.text.columnAt (Text.byteLength call.before), .waveformAsSample call.captured wave⟩] := by
  simp only [findings, (find?_standaloneCall_iff _ _).mpr first, Waveform.filter_named ((wave.named_iff _).mpr named),
    List.map_cons, List.map_nil]

/-- No sample is reported just on the lines whose first standalone call, if there is one, names no waveform. -/
theorem findings_eq_nil_iff (line : Line) :
    findings line = [] ↔
      ∀ o, FirstCall line.text o → ∀ wave : Waveform, sampleRoot o.captured ≠ wave.name := by
  simp only [List.eq_nil_iff_forall_not_mem, mem_findings_iff]
  constructor
  · intro silent o first wave named
    exact silent _ ⟨o, first, wave, named, rfl⟩
  · rintro unnamed _ ⟨o, first, wave, named, _⟩
    exact unnamed o first wave named

end Sample

/-! ### Amounts outside the recommended range -/

namespace Range

theorem judge_eq_some_iff {effect : Effect} {amount : Binary64} {cause : Cause} :
    judge effect amount = some cause ↔
      amount.below (Binary64.nearest effect.least) = true ∧ cause = .belowRange effect amount ∨
      ¬ amount.below (Binary64.nearest effect.least) = true ∧
        (Binary64.nearest effect.greatest).below amount = true ∧ cause = .aboveRange effect amount := by
  unfold judge
  split_ifs with below above
  · simp [below, eq_comm (a := cause)]
  · simp [below, above, eq_comm (a := cause)]
  · simp [below, above]

/-- The amount that is reported is read from the leftmost call of the effect. -/
theorem finding?_eq_some_iff {line : Line} {effect : Effect} {finding : Finding} :
    finding? line effect = some finding ↔
      ∃ call amount cause, (effectCall effect).find? line.text = some call ∧
        Decimal.ofText? call.captured = some amount ∧ judge effect (Binary64.nearest amount) = some cause ∧
        finding = ⟨line.number, line.text.columnAt (Text.byteLength call.before), cause⟩ := by
  rw [finding?]
  cases (effectCall effect).find? line.text with
  | none => simp
  | some call => cases read : Decimal.ofText? call.captured <;> simp [read, eq_comm (a := finding)]

end Range

/-! ### Direct playback -/

namespace Playback

theorem playCall_spells : playCall.Spells (fun _ => True) (fun _ => Opening ".play".toList) where
  mayFollow_iff _ := by simp [playCall]
  read_iff := map_unit_eq_some_iff.trans Reader.opening_iff

theorem word_spells (first : Char) (rest : Text) :
    (word first rest).Spells (fun _ => True) (fun _ => (· = first :: rest)) where
  mayFollow_iff _ := by simp [word]
  read_iff := map_unit_eq_some_iff.trans literal_iff

theorem contains_of_opening {word text : Text} (opens : Contains (Opening word) text) : Contains (· = word) text := by
  obtain ⟨before, _, after, ⟨gap, _, rfl⟩, rfl⟩ := opens
  exact ⟨before, word, gap ++ ['('] ++ after, rfl, by simp⟩

/-- The name of the method occurs wherever the method is called, so the rule has a place to report. -/
theorem occursIn_playName {text : Text} (called : playCall.occursIn text = true) : playName.occursIn text = true :=
  (Pattern.occursIn_iff_contains (word_spells '.' "play".toList) text).mpr
    (contains_of_opening ((Pattern.occursIn_iff_contains playCall_spells text).mp called))

/-- So the name is found wherever the method is called, and its place is never made up. -/
theorem exists_find?_of_called {text : Text} (called : playCall.occursIn text = true) :
    ∃ name, playName.find? text = some name ∧ offset text = Text.byteLength name.before := by
  obtain ⟨name, found⟩ := Option.isSome_iff_exists.mp (occursIn_playName called)
  exact ⟨name, found, by rw [offset, found]⟩

theorem findings_eq_singleton {line : Line} {name : Occurrence Unit}
    (called : (playCall.occursIn line.text && !playbackState.occursIn line.text) = true)
    (named : playName.find? line.text = some name) :
    findings line = [⟨line.number, line.text.columnAt (Text.byteLength name.before), .directPlay⟩] := by
  simp only [findings, if_pos called, offset, named]

/-- What is reported is the first place of the name, on a line with a call and without the state of playback. -/
theorem mem_findings_iff {line : Line} {finding : Finding} :
    finding ∈ findings line ↔
      (playCall.occursIn line.text && !playbackState.occursIn line.text) = true ∧
      ∃ name, playName.find? line.text = some name ∧
        finding = ⟨line.number, line.text.columnAt (Text.byteLength name.before), .directPlay⟩ := by
  constructor
  · intro reported
    by_cases called : (playCall.occursIn line.text && !playbackState.occursIn line.text) = true
    · obtain ⟨name, named, _⟩ := exists_find?_of_called (Bool.and_eq_true_iff.mp called).1
      rw [findings_eq_singleton called named] at reported
      exact ⟨called, name, named, List.mem_singleton.mp reported⟩
    · rw [findings, if_neg called] at reported
      cases reported
  · rintro ⟨called, name, named, rfl⟩
    rw [findings_eq_singleton called named]
    exact List.mem_singleton_self _

/-- No playback is reported just on the lines without a call of `.play` and on those that mention the state of
    playback. -/
theorem findings_eq_nil_iff (line : Line) :
    findings line = [] ↔
      (Contains (Opening ".play".toList) line.text → Contains (· = "isPlaying".toList) line.text) := by
  have calls := Pattern.occursIn_iff_contains playCall_spells line.text
  have state : playbackState.occursIn line.text = true ↔ Contains (· = "isPlaying".toList) line.text :=
    Pattern.occursIn_iff_contains (word_spells 'i' "sPlaying".toList) line.text
  rw [← calls, ← state, findings]
  cases playCall.occursIn line.text <;> cases playbackState.occursIn line.text <;> simp

end Playback

end PatternLint
