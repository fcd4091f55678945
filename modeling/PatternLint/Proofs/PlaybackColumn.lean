import PatternLint.Proofs.LineRules

/-!
# The column of direct playback

A line that calls `.play` is reported where the name of the method stands first, whether it is called there or is the
start of a longer name. So the column is that of the first call just when the name does not stand in the text before
this call; otherwise it is to the left of it, and what stands there is no call (`Playback.column_exact`).
-/
namespace PatternLint

/-- A part of a form stands at the start of a text. -/
def StartsWith (form : Text → Prop) (text : Text) : Prop := ∃ part rest, form part ∧ text = part ++ rest

namespace Playback

def methodName : Text := ".play".toList

/-- The first place of the name of the method. -/
def FirstName (text : Text) (name : Occurrence Unit) : Prop :=
  Leftmost (fun _ => True) (fun _ => (· = methodName)) text name

/-- The first place where the method is called. -/
def FirstCall (text : Text) (call : Occurrence Unit) : Prop :=
  Leftmost (fun _ => True) (fun _ => Opening methodName) text call

theorem find?_playName_iff (text : Text) (name : Occurrence Unit) :
    playName.find? text = some name ↔ FirstName text name :=
  Pattern.find?_eq_some_iff_leftmost (word_spells '.' "play".toList) text name

theorem find?_playCall_iff (text : Text) (call : Occurrence Unit) :
    playCall.find? text = some call ↔ FirstCall text call :=
  Pattern.find?_eq_some_iff_leftmost playCall_spells text call

/-- A line is reported once, at the first name, if it has a call. -/
theorem eq_of_mem_findings {line : Line} {finding : Finding} (reported : finding ∈ findings line) :
    findings line = [finding] ∧ ∃ name call, FirstName line.text name ∧ FirstCall line.text call ∧
      finding = ⟨line.number, name.before.length + 1, .directPlay⟩ := by
  obtain ⟨called, name, found, rfl⟩ := mem_findings_iff.mp reported
  obtain ⟨call, calls⟩ := Option.isSome_iff_exists.mp (Bool.and_eq_true_iff.mp called).1
  have named := (find?_playName_iff _ _).mp found
  refine ⟨findings_eq_singleton called found, name, call, named, (find?_playCall_iff _ _).mp calls, ?_⟩
  rw [named.1.columnAt_eq]

/-! ### The name and the call -/

/-- The name does not overlap with itself: where it stands twice, the first place ends before the second. -/
theorem contains_of_shorter {text : Text} {name call : Occurrence Unit}
    (named : Stands (fun _ => True) (fun _ => (· = methodName)) text name)
    (called : Stands (fun _ => True) (fun _ => Opening methodName) text call)
    (left : name.before.length < call.before.length) : Contains (· = methodName) call.before := by
  obtain ⟨_, rfl, nameParts⟩ := named.parts
  obtain ⟨_, ⟨gap, _, rfl⟩, callParts⟩ := called.parts
  have nameStarts : name.before ++ methodName <+: text := ⟨name.after, nameParts.symm⟩
  have dotted : methodName = ['.'] ++ "play".toList := by decide
  have callStarts : call.before ++ ['.'] <+: text :=
    ⟨"play".toList ++ gap ++ ['('] ++ call.after, by rw [callParts, dotted]; simp only [List.append_assoc]⟩
  rcases List.prefix_or_prefix_of_prefix nameStarts callStarts with ends | overlaps
  · rcases List.prefix_concat_iff.mp ends with same | ⟨rest, inside⟩
    · have last := congrArg List.getLast? same
      rw [List.getLast?_append_of_ne_nil _ (by decide), List.getLast?_concat] at last
      exact absurd last (by decide)
    · exact ⟨name.before, methodName, rest, rfl, inside.symm⟩
  · -- the dot of the call would stand in the name behind its own dot
    have dot := List.prefix_iff_getElem?.mp overlaps call.before.length (by simp)
    obtain ⟨n, further⟩ : ∃ n, call.before.length - name.before.length = n + 1 :=
      ⟨call.before.length - name.before.length - 1, by omega⟩
    rw [List.getElem?_append_right (by omega), further, List.getElem_concat_length rfl] at dot
    have inside : '.' ∈ "play".toList := List.mem_of_getElem? (i := n) dot
    exact absurd inside (by decide)

section
variable {text : Text} {name call : Occurrence Unit} (named : FirstName text name) (called : FirstCall text call)
include named called

/-- The method is called by its name, so the first name is not behind the first call. -/
theorem length_name_le : name.before.length ≤ call.before.length := by
  obtain ⟨_, ⟨gap, _, rfl⟩, parts⟩ := called.1.parts
  exact named.2 ⟨call.before, (), gap ++ ['('] ++ call.after⟩ ⟨trivial, methodName, rfl, by simp [parts]⟩

/-- The first name is called just when the name does not stand before the first call. -/
theorem length_name_eq_iff :
    name.before.length = call.before.length ↔ ¬ Contains (· = methodName) call.before := by
  constructor
  · rintro same ⟨before, _, after, rfl, parts⟩
    obtain ⟨part, _, whole⟩ := called.1.parts
    have there : Stands (fun _ => True) (fun _ => (· = methodName)) text ⟨before, (), after ++ part ++ call.after⟩ :=
      ⟨trivial, methodName, rfl, by simp [whole, parts]⟩
    have first := named.2 _ there
    have longer : call.before.length = before.length + (methodName.length + after.length) := by simp [parts]
    have positive : 0 < methodName.length := by decide
    dsimp only at first
    omega
  · intro absent
    have le := length_name_le named called
    by_contra other
    exact absent (contains_of_shorter named.1 called.1 (by omega))

/-- A call stands at the first name just when this is the place of the first call. -/
theorem startsWith_drop_iff :
    StartsWith (Opening methodName) (text.drop name.before.length) ↔ name.before.length = call.before.length := by
  constructor
  · rintro ⟨part, rest, opening, cut⟩
    obtain ⟨word, _, parts⟩ := named.1.parts
    have whole : text = name.before ++ part ++ rest := by
      rw [List.append_assoc, ← cut, parts, List.append_assoc, List.drop_left]
    have first := called.2 ⟨name.before, (), rest⟩ ⟨trivial, part, opening, whole⟩
    exact Nat.le_antisymm (length_name_le named called) first
  · intro same
    obtain ⟨part, opening, parts⟩ := called.1.parts
    exact ⟨part, call.after, opening, by rw [same, parts, List.append_assoc, List.drop_left]⟩

end

/-! ### The column -/

/-- A line is reported at the first place of the name, which is the place of the first call or to the left of it. It is
    that of the call, and the text from there on starts with a call, just when the name does not stand before the call. -/
theorem column_exact {line : Line} {finding : Finding} (reported : finding ∈ findings line) :
    findings line = [finding] ∧ ∃ name call, FirstName line.text name ∧ FirstCall line.text call ∧
      finding = ⟨line.number, name.before.length + 1, .directPlay⟩ ∧
      finding.column ≤ call.before.length + 1 ∧
      (finding.column = call.before.length + 1 ↔ ¬ Contains (· = methodName) call.before) ∧
      (StartsWith (Opening methodName) (line.text.drop (finding.column - 1)) ↔
        ¬ Contains (· = methodName) call.before) := by
  obtain ⟨alone, name, call, named, called, rfl⟩ := eq_of_mem_findings reported
  refine ⟨alone, name, call, named, called, rfl, ?_, ?_, ?_⟩
  · have le := length_name_le named called
    dsimp only
    omega
  · rw [← length_name_eq_iff named called]
    dsimp only
    omega
  · rw [← length_name_eq_iff named called, ← startsWith_drop_iff named called]
    rfl

/-- A call with a blank, behind a letter of two bytes. -/
theorem column_exact_blank :
    (⟨3, 2, .directPlay⟩ : Finding) ∈ findings ⟨3, "é.play ()".toList⟩ ∧
    ∃ call, FirstCall "é.play ()".toList call ∧ call.before.length + 1 = 2 ∧
      StartsWith (Opening methodName) ("é.play ()".toList.drop 1) := by
  have reported : (⟨3, 2, .directPlay⟩ : Finding) ∈ findings ⟨3, "é.play ()".toList⟩ := by decide
  obtain ⟨-, name, call, -, called, -, -, column, starts⟩ := column_exact reported
  have opened : StartsWith (Opening methodName) ("é.play ()".toList.drop 1) :=
    ⟨".play (".toList, [')'], ⟨[' '], List.forall_mem_singleton.mpr (by decide), rfl⟩, rfl⟩
  exact ⟨reported, call, called, (column.mpr (starts.mp opened)).symm, opened⟩

/-- A longer name before the call: the column is that of the longer name, and no call stands there. -/
theorem column_of_longer_name :
    ∃ call, FirstCall ".player().play()".toList call ∧ call.before.length + 1 = 10 ∧
    findings ⟨1, ".player().play()".toList⟩ = [⟨1, 1, .directPlay⟩] ∧
    ¬ StartsWith (Opening methodName) (".player().play()".toList.drop (1 - 1)) := by
  refine ⟨⟨".player()".toList, (), ")".toList⟩, (find?_playCall_iff _ _).mp (by decide), rfl, by decide, ?_⟩
  rintro ⟨part, rest, opening, parts⟩
  have read := Reader.opening_iff.mpr ⟨part, opening, parts⟩
  have fails : Reader.opening methodName (".player().play()".toList.drop (1 - 1)) = none := by decide
  cases fails.symm.trans read

end Playback
end PatternLint
