import Mathlib.Order.Monotone.Basic
import PatternLint.Proofs.AmountWarnings
import PatternLint.Proofs.EscapeHatches
import PatternLint.Proofs.PlaybackColumn

/-!
# Columns and boundaries

A boundary of a text is the length in UTF-8 of its first characters, and its column counts these characters. So columns
ascend from boundary to boundary; every other offset lies inside a character or past the end, and has column one. The
bytes of a text that is not empty stand in those of another at boundaries only. What the rules about lines look for is
found at boundaries too, so every column that they report counts the characters before it (`Text.columns_exact`).
-/
namespace PatternLint

namespace Text

/-- The length in UTF-8 of the first characters of a text. -/
def bytesBefore (text : Text) (count : Nat) : Nat := (encode (text.take count)).size

/-- Whether an offset is the length of the first characters of a text, for some number of them. -/
def IsBoundary (text : Text) (offset : Nat) : Prop := ∃ count ≤ text.length, offset = text.bytesBefore count

/-- Whether some bytes of a character lie before an offset and the others behind it. -/
def IsInside (text : Text) (offset : Nat) : Prop :=
  ∃ count < text.length, text.bytesBefore count < offset ∧ offset < text.bytesBefore (count + 1)

/-! ### Lengths in UTF-8 -/

theorem size_encode (text : Text) : (encode text).size = byteLength text := by
  change (String.ofList text).utf8ByteSize = _
  induction text with
  | nil => rfl
  | cons c text ih =>
    rw [← List.singleton_append, String.ofList_append, String.utf8ByteSize_append, ih, ← String.singleton_eq_ofList,
      String.utf8ByteSize_singleton]
    rfl

theorem bytesBefore_eq (text : Text) (count : Nat) : text.bytesBefore count = byteLength (text.take count) :=
  size_encode (text.take count)

@[simp] theorem bytesBefore_zero (text : Text) : text.bytesBefore 0 = 0 := bytesBefore_eq text 0

@[simp] theorem bytesBefore_cons (c : Char) (text : Text) (count : Nat) :
    bytesBefore (c :: text) (count + 1) = c.utf8Size + text.bytesBefore count := by
  simp only [bytesBefore_eq, List.take_succ_cons, byteLength]

theorem bytesBefore_length (text : Text) : text.bytesBefore text.length = (encode text).size := by
  rw [bytesBefore, List.take_length]

/-- Every character has a byte, so more characters are longer. -/
theorem strictMonoOn_bytesBefore (text : Text) : StrictMonoOn text.bytesBefore {count | count ≤ text.length} := by
  intro count _ more inside less
  induction text generalizing count more with
  | nil => exact absurd (Nat.lt_of_lt_of_le less inside) count.not_lt_zero
  | cons c text ih =>
    obtain ⟨more, rfl⟩ := Nat.exists_eq_add_one_of_ne_zero (Nat.ne_zero_of_lt less)
    have positive := c.utf8Size_pos
    cases count with
    | zero =>
      rw [bytesBefore_zero, bytesBefore_cons]
      omega
    | succ count =>
      have less := Nat.lt_of_succ_lt_succ less
      have inside := Nat.le_of_succ_le_succ inside
      have := ih (Nat.le_of_lt (Nat.lt_of_lt_of_le less inside)) inside less
      simpa using this

/-! ### Boundaries -/

theorem charactersBefore?_eq_some_iff {text : Text} {offset count : Nat} :
    charactersBefore? text offset = some count ↔ count ≤ text.length ∧ offset = text.bytesBefore count := by
  constructor
  · intro counted
    fun_induction charactersBefore? text offset generalizing count with
    | case1 text =>
      obtain rfl := Option.some.inj counted
      exact ⟨Nat.zero_le _, (bytesBefore_zero text).symm⟩
    | case2 => cases counted
    | case3 c text offset fits ih =>
      obtain ⟨count, later, rfl⟩ := Option.map_eq_some_iff.mp counted
      obtain ⟨inside, rest⟩ := ih later
      exact ⟨Nat.succ_le_succ inside, by rw [bytesBefore_cons]; omega⟩
    | case4 => cases counted
  · rintro ⟨inside, rfl⟩
    have counted := charactersBefore?_byteLength (text.take count) (text.drop count)
    rwa [List.take_append_drop, List.length_take_of_le inside, ← bytesBefore_eq] at counted

theorem isBoundary_iff {text : Text} {offset : Nat} :
    text.IsBoundary offset ↔ ∃ count, charactersBefore? text offset = some count := by
  simp only [IsBoundary, charactersBefore?_eq_some_iff]

/-- An offset that lies behind no number of whole characters is inside one of them or past the last. -/
theorem isInside_or_lt_of_eq_none {text : Text} {offset : Nat} (uncounted : charactersBefore? text offset = none) :
    text.IsInside offset ∨ (encode text).size < offset := by
  simp only [← bytesBefore_length]
  fun_induction charactersBefore? text offset with
  | case1 => cases uncounted
  | case2 offset => exact .inr (Nat.succ_pos offset)
  | case3 c text offset fits ih =>
    rcases ih (Option.map_eq_none_iff.mp uncounted) with ⟨count, inside, behind, before⟩ | past
    · exact .inl ⟨count + 1, Nat.succ_lt_succ inside, by rw [bytesBefore_cons]; omega, by rw [bytesBefore_cons]; omega⟩
    · exact .inr (by rw [List.length_cons, bytesBefore_cons]; omega)
  | case4 c text offset wide =>
    refine .inl ⟨0, Nat.succ_pos _, by simp, ?_⟩
    rw [bytesBefore_cons]
    omega

theorem not_isBoundary_iff {text : Text} {offset : Nat} :
    ¬ text.IsBoundary offset ↔ text.IsInside offset ∨ (encode text).size < offset := by
  have ascends := text.strictMonoOn_bytesBefore
  constructor
  · intro other
    refine isInside_or_lt_of_eq_none (Option.eq_none_iff_forall_ne_some.mpr fun count counted => ?_)
    exact other (isBoundary_iff.mpr ⟨count, counted⟩)
  · rintro (⟨count, inside, behind, before⟩ | past) ⟨own, inText, rfl⟩
    · have := (ascends.lt_iff_lt (Nat.le_of_lt inside) inText).mp behind
      have := (ascends.lt_iff_lt inText inside).mp before
      omega
    · rw [← bytesBefore_length, ascends.lt_iff_lt (le_refl text.length) inText] at past
      exact Nat.not_lt_of_le inText past

/-- The bytes of a text that is not empty stand in those of another text at boundaries only: the first of them can only be
    the first byte of a character. -/
theorem isBoundary_of_encode_eq {text word : Text} (some_word : word ≠ []) {left right : ByteArray}
    (parts : encode text = left ++ encode word ++ right) : text.IsBoundary left.size := by
  have part : (encode text).extract left.size (left.size + (encode word).size) = encode word := by
    rw [parts, ByteArray.append_assoc]
    exact (ByteArray.extract_append_size_add (i := 0)).trans (ByteArray.extract_append_eq_left rfl)
  have valid : (encode word).IsValidUTF8 := (String.ofList word).isValidUTF8
  have longer : 0 < (encode word).size := by
    rw [size_encode]
    exact Nat.lt_of_lt_of_le (List.length_pos_iff.mpr some_word) (length_le_byteLength word)
  have fits : left.size + (encode word).size ≤ (encode text).size := by
    rw [parts, ByteArray.size_append, ByteArray.size_append]
    exact Nat.le_add_right _ _
  rw [← part] at valid
  -- a part of valid bytes that is valid itself is empty or lies between two boundaries
  rcases (String.Pos.Raw.isValidUTF8_extract_iff ⟨left.size⟩ ⟨_⟩ (Nat.le_add_right _ _) fits).mp valid with
    same | ⟨start, _⟩
  · have := congrArg String.Pos.Raw.byteIdx same
    dsimp only at this
    omega
  · obtain ⟨count, is⟩ := String.Pos.Raw.isValid_ofList.mp start
    refine ⟨min count text.length, Nat.min_le_right _ _, is.trans ?_⟩
    rw [bytesBefore, ← List.take_eq_take_min]
    rfl

/-! ### Columns -/

theorem columnAt_bytesBefore {text : Text} {count : Nat} (inside : count ≤ text.length) :
    text.columnAt (text.bytesBefore count) = count + 1 := by
  rw [columnAt, charactersBefore?_eq_some_iff.mpr ⟨inside, rfl⟩]

theorem columnAt_eq_one {text : Text} {offset : Nat} (other : ¬ text.IsBoundary offset) : text.columnAt offset = 1 := by
  rw [columnAt]
  split
  · next count counted => exact absurd (isBoundary_iff.mpr ⟨count, counted⟩) other
  · rfl

theorem columnAt_le (text : Text) (offset : Nat) : text.columnAt offset ≤ text.length + 1 := by
  by_cases boundary : text.IsBoundary offset
  · obtain ⟨count, inside, rfl⟩ := boundary
    rw [columnAt_bytesBefore inside]
    omega
  · rw [columnAt_eq_one boundary]
    omega

theorem strictMonoOn_columnAt (text : Text) : StrictMonoOn text.columnAt {offset | text.IsBoundary offset} := by
  rintro _ ⟨count, inside, rfl⟩ _ ⟨more, inside', rfl⟩ less
  rw [columnAt_bytesBefore inside, columnAt_bytesBefore inside']
  exact Nat.succ_lt_succ ((text.strictMonoOn_bytesBefore.lt_iff_lt inside inside').mp less)

end Text

/-! ### What the rules about lines look for -/

/-- The number of bytes before an occurrence. -/
def Occurrence.offset {α : Type} (o : Occurrence α) : Nat := Text.byteLength o.before

namespace LineRule

/-- The offsets that the searches of a rule end with. The search for the place of a construct and the one for the name of
    the method end with the start of the text if they find nothing. -/
def starts : LineRule → Text → List Nat
  | sample, text => (Sample.standaloneCall.find? text).toList.map Occurrence.offset
  | escape, text => (Escape.firstHatch? text).toList.map (Escape.offset · text)
  | range, text => Effect.all.filterMap fun effect => ((Range.effectCall effect).find? text).map Occurrence.offset
  | playback, text =>
    if Playback.playCall.occursIn text && !Playback.playbackState.occursIn text then [Playback.offset text] else []

/-- What a rule looks for stands behind a part of a text, and nowhere to the left. -/
inductive Meets (text : Text) : LineRule → Text → Prop
  | sample {call : Occurrence Text} : Sample.FirstCall text call → Meets text sample call.before
  | escape {hatch : EscapeHatch} {place : Occurrence Unit} : Escape.Foremost hatch text →
      Escape.FirstPlace hatch text place → Meets text escape place.before
  | range {effect : Effect} {call : Occurrence Text} : Range.FirstCall effect text call → Meets text range call.before
  | playback {name call : Occurrence Unit} : Playback.FirstCall text call → Playback.FirstName text name →
      Meets text playback name.before

/-- A search that ends with an offset has found what it looks for there, also when this is the start of the text. -/
theorem meets_of_mem_starts {rule : LineRule} {text : Text} {start : Nat} (member : start ∈ rule.starts text) :
    ∃ before, rule.Meets text before ∧ start = Text.byteLength before := by
  cases rule with
  | sample =>
    obtain ⟨call, found, rfl⟩ := List.mem_map.mp member
    exact ⟨call.before, .sample ((Sample.find?_standaloneCall_iff text call).mp (Option.mem_toList.mp found)), rfl⟩
  | escape =>
    obtain ⟨hatch, found, rfl⟩ := List.mem_map.mp member
    have first := Option.mem_toList.mp found
    obtain ⟨place, there, start⟩ := Escape.exists_find?_of_firstHatch? first
    exact ⟨place.before, .escape ((Escape.firstHatch?_eq_some_iff text hatch).mp first)
      (Escape.firstPlace_of_find? there), start⟩
  | range =>
    obtain ⟨effect, _, found⟩ := List.mem_filterMap.mp member
    obtain ⟨call, there, rfl⟩ := Option.map_eq_some_iff.mp found
    exact ⟨call.before, .range ((Range.find?_effectCall_iff effect text call).mp there), rfl⟩
  | playback =>
    rw [starts] at member
    split at member
    · next called =>
      have calls := (Bool.and_eq_true_iff.mp called).1
      obtain ⟨call, first⟩ := Option.isSome_iff_exists.mp calls
      obtain ⟨name, named, place⟩ := Playback.exists_find?_of_called calls
      rw [place, List.mem_singleton] at member
      exact ⟨name.before, .playback ((Playback.find?_playCall_iff text call).mp first)
        ((Playback.find?_playName_iff text name).mp named), member⟩
    · cases member

theorem Meets.exists_rest {rule : LineRule} {text before : Text} (meets : rule.Meets text before) :
    ∃ rest, text = before ++ rest := by
  cases meets with
  | sample first => exact first.1.exists_rest
  | escape _ first => exact first.1.exists_rest
  | range first => exact first.1.exists_rest
  | playback _ first => exact first.1.exists_rest

/-- What a rule reports has the column of an offset that one of its searches ended with. -/
theorem exists_start_of_mem {rule : LineRule} {line : Line} {finding : Finding} (member : finding ∈ rule.findings line) :
    ∃ start ∈ rule.starts line.text, finding.column = line.text.columnAt start := by
  cases rule with
  | sample =>
    obtain ⟨call, first, _, _, rfl⟩ := Sample.mem_findings_iff.mp member
    have found := (Sample.find?_standaloneCall_iff line.text call).mpr first
    exact ⟨call.offset, by simp [starts, found], rfl⟩
  | escape =>
    obtain ⟨hatch, place, first, found, rfl⟩ := Escape.mem_findings_iff.mp member
    exact ⟨place.offset, by simp [starts, first, Escape.offset, found, Occurrence.offset], rfl⟩
  | range =>
    obtain ⟨effect, listed, found⟩ := List.mem_filterMap.mp member
    obtain ⟨call, _, _, called, _, _, rfl⟩ := Range.finding?_eq_some_iff.mp found
    exact ⟨call.offset, List.mem_filterMap.mpr ⟨effect, listed, by rw [called]; rfl⟩, rfl⟩
  | playback =>
    obtain ⟨called, name, found, rfl⟩ := Playback.mem_findings_iff.mp member
    exact ⟨name.offset, by simp [starts, called, Playback.offset, found, Occurrence.offset], rfl⟩

end LineRule

/-! ### What columns count -/

namespace Text

/-- The column of a boundary is one more than the number of characters before it, and the column of any other offset, which
    is inside a character or past the end, is one. So the columns of boundaries ascend strictly and differ, and no column
    exceeds the number of characters by more than one. Where the bytes of a text that is not empty stand, there is a
    boundary. What a rule about lines finds begins at the boundary behind the text before it, where the characters can be
    counted, and whatever the rule reports has the column of such a start. -/
theorem columns_exact (text : Text) :
    (∀ count ≤ text.length, text.columnAt (text.bytesBefore count) = count + 1) ∧
    (∀ offset, ¬ text.IsBoundary offset → text.columnAt offset = 1) ∧
    (∀ offset, ¬ text.IsBoundary offset ↔ text.IsInside offset ∨ (encode text).size < offset) ∧
    StrictMonoOn text.columnAt {offset | text.IsBoundary offset} ∧
    Set.InjOn text.columnAt {offset | text.IsBoundary offset} ∧
    (∀ offset, text.columnAt offset ≤ text.length + 1) ∧
    (∀ (word : Text) (left right : ByteArray), word ≠ [] → encode text = left ++ encode word ++ right →
      text.IsBoundary left.size) ∧
    (∀ (rule : LineRule) (start : Nat), start ∈ rule.starts text → ∃ before rest, rule.Meets text before ∧
      text = before ++ rest ∧ start = (encode before).size ∧ charactersBefore? text start = some before.length) ∧
    (∀ (rule : LineRule) (number : Nat) (finding : Finding), finding ∈ rule.findings ⟨number, text⟩ →
      ∃ start ∈ rule.starts text, finding.column = text.columnAt start) := by
  refine ⟨fun count => columnAt_bytesBefore, fun offset => columnAt_eq_one, fun offset => not_isBoundary_iff,
    text.strictMonoOn_columnAt, text.strictMonoOn_columnAt.injOn, text.columnAt_le,
    fun word left right some_word => isBoundary_of_encode_eq some_word, fun rule start member => ?_,
    fun rule number finding => LineRule.exists_start_of_mem⟩
  obtain ⟨before, meets, rfl⟩ := LineRule.meets_of_mem_starts member
  obtain ⟨rest, rfl⟩ := meets.exists_rest
  exact ⟨before, rest, meets, rfl, (size_encode before).symm, charactersBefore?_byteLength before rest⟩

/-- Calls behind characters of two, three and four bytes. -/
def wide : Text := "é€😀.play().lpf(1000)".toList

/-- An offset inside a character, the bytes of a name, a call that is found but not reported and one that is reported. -/
theorem columns_exact_wide :
    3 ≤ wide.length ∧ wide.columnAt (wide.bytesBefore 3) = 4 ∧ wide.IsInside 8 ∧ wide.columnAt 8 = 1 ∧
    encode wide = encode "é€😀".toList ++ encode ".play".toList ++ encode "().lpf(1000)".toList ∧
    wide.IsBoundary (encode "é€😀".toList).size ∧
    16 ∈ LineRule.range.starts wide ∧ (∃ before rest, LineRule.range.Meets wide before ∧ wide = before ++ rest ∧
      16 = (encode before).size ∧ charactersBefore? wide 16 = some before.length) ∧
    ⟨7, 4, .directPlay⟩ ∈ LineRule.playback.findings ⟨7, wide⟩ ∧
    ∃ start ∈ LineRule.playback.starts wide, 4 = wide.columnAt start := by
  obtain ⟨counts, elsewhere, apart, -, -, -, words, starts, reports⟩ := columns_exact wide
  have shorter : 3 ≤ wide.length := by decide
  have inside : wide.IsInside 8 := by
    refine ⟨2, by decide, ?_, ?_⟩ <;> rw [bytesBefore_eq] <;> decide
  have parts : encode wide = encode "é€😀".toList ++ encode ".play".toList ++ encode "().lpf(1000)".toList := by
    decide
  have found : 16 ∈ LineRule.range.starts wide := by decide
  have reported : ⟨7, 4, .directPlay⟩ ∈ LineRule.playback.findings ⟨7, wide⟩ := by decide
  exact ⟨shorter, counts 3 shorter, inside, elsewhere 8 ((apart 8).mpr (.inl inside)), parts,
    words ".play".toList _ _ (by decide) parts, found, starts .range 16 found, reported, reports .playback 7 _ reported⟩

end Text
end PatternLint
