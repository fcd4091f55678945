import Mathlib.Data.List.DropRight
import PatternLint.Proofs.Calls

/-!
# Texts that go on

Where a form stands in a text, it stands in every longer text as well. It could lose the leftmost place to a part that
only the longer text completes; but that part would contain the old one, and go on behind it. For forms of which no part
contains another one and goes on behind it (`EndsTogether`), the leftmost place stays (`Leftmost.append`). Calls on a
quoted argument are such a form, as behind their second quote stand blanks alone (`endsTogether_call`).
-/
namespace PatternLint

variable {α : Type}

/-! ### The leftmost place -/

/-- A part of a form that contains another one ends with it. -/
def EndsTogether (form : α → Text → Prop) : Prop :=
  ∀ {value other : α} {before part after : Text}, form value (before ++ part ++ after) → form other part → after = []

theorem Stands.append {free : Option Char → Prop} {form : α → Text → Prop} {text : Text} {o : Occurrence α}
    (stands : Stands free form text o) (more : Text) : Stands free form (text ++ more) { o with after := o.after ++ more } := by
  obtain ⟨part, ofForm, parts⟩ := stands.parts
  exact ⟨stands.mayStart, part, ofForm, by simp [parts]⟩

/-- The leftmost place of a form stays the leftmost one when the text goes on. -/
theorem Leftmost.append {free : Option Char → Prop} {form : α → Text → Prop} (ends : EndsTogether form) {text : Text}
    {o : Occurrence α} (first : Leftmost free form text o) (more : Text) :
    Leftmost free form (text ++ more) { o with after := o.after ++ more } := by
  refine ⟨first.1.append more, fun other there => ?_⟩
  by_contra further
  obtain ⟨part, ofForm, parts⟩ := first.1.parts
  obtain ⟨longer, ofForm', parts'⟩ := there.parts
  -- the part in the longer text is no part of the text, where it would stand to the left of the leftmost one
  have beyond : text.length < (other.before ++ longer).length := by
    by_contra inside
    obtain ⟨rest, cut⟩ : other.before ++ longer <+: text :=
      List.prefix_of_prefix_length_le ⟨other.after, parts'.symm⟩ (List.prefix_append text more) (Nat.le_of_not_lt inside)
    exact further (first.2 ⟨other.before, other.captured, rest⟩ ⟨there.mayStart, longer, ofForm', cut.symm⟩)
  -- so it starts before the leftmost one and reaches behind it
  have inText : o.before ++ part <+: text ++ more := ⟨o.after ++ more, by simp [parts]⟩
  have inText' : other.before ++ longer <+: text ++ more := ⟨other.after, parts'.symm⟩
  obtain ⟨skipped, start⟩ : other.before <+: o.before :=
    List.prefix_of_prefix_length_le ((List.prefix_append _ longer).trans inText') ((List.prefix_append _ part).trans inText)
      (Nat.le_of_not_le further)
  obtain ⟨rest, cut⟩ : o.before ++ part <+: other.before ++ longer :=
    List.prefix_of_prefix_length_le inText inText' (by simp only [parts, List.length_append] at beyond ⊢; omega)
  have contains : longer = skipped ++ part ++ rest := by
    rw [← start] at cut
    simpa using cut.symm
  have nothing : rest = [] := ends (contains ▸ ofForm') ofForm
  rw [← cut, nothing, parts] at beyond
  simp only [List.append_nil, List.length_append] at beyond
  omega

/-! ### Calls on a quoted argument -/

/-- What stands behind the last character of a kind is fixed. -/
theorem eq_of_last {p : Char → Bool} {front front' rest rest' : Text} {c d : Char} (own : p c = true) (own' : p d = true)
    (last : rest.countP p = 0) (last' : rest'.countP p = 0) (same : front ++ c :: rest = front' ++ d :: rest') :
    rest = rest' := by
  have behind {front rest : Text} {c : Char} (own : p c = true) (last : rest.countP p = 0) :
      (front ++ c :: rest).rtakeWhile (!p ·) = rest := by
    have others : ∀ d ∈ rest.reverse, (!p d) = true := by simpa using last
    have stop : ∀ d ∈ (c :: front.reverse).head?, (!p d) = false := by simp [own]
    have turned : (front ++ c :: rest).reverse = rest.reverse ++ c :: front.reverse := by simp
    rw [List.rtakeWhile, turned, (Text.takeWhile_append_of_stop others stop).1, List.reverse_reverse]
  calc rest = (front ++ c :: rest).rtakeWhile (!p ·) := (behind own last).symm
    _ = rest' := by rw [same, behind own' last']

theorem countP_isQuote_gap {gap : Text} (blank : Gap gap) : gap.countP Reader.isQuote = 0 :=
  List.countP_eq_zero.mpr fun c member quote =>
    Bool.noConfusion ((blank c member).symm.trans (Reader.isBlank_of_isQuote quote))

/-- Behind the second of its two quotes a call on a quoted argument has blanks and the closing parenthesis. -/
theorem Call.exists_second {word value part : Text} (plain : word.countP Reader.isQuote = 0)
    (call : Call word Quoted value part) : ∃ front quote gap, Reader.isQuote quote = true ∧ Gap gap ∧
      front.countP Reader.isQuote = 1 ∧ part = front ++ quote :: (gap ++ [')']) := by
  obtain ⟨_, gap, _, gap', ⟨spaces, blanks, rfl⟩, blank, ⟨start, stop, opens, closes, _, free, rfl⟩, blank', rfl⟩ := call
  have inside : value.countP Reader.isQuote = 0 := List.countP_eq_zero.mpr fun c member => Bool.eq_false_iff.mp (free c member)
  have parenthesis : ['('].countP Reader.isQuote = 0 := by decide
  refine ⟨word ++ spaces ++ ['('] ++ gap ++ start :: value, stop, gap', closes, blank', ?_, by simp⟩
  simp only [List.countP_append, plain, countP_isQuote_gap blanks, parenthesis, countP_isQuote_gap blank,
    List.countP_cons_of_pos opens, inside]

/-- A call on a quoted argument that contains another one ends with it. -/
theorem endsTogether_call {word : Text} (plain : word.countP Reader.isQuote = 0) : EndsTogether (Call word Quoted) := by
  intro value other before part after outer inner
  obtain ⟨front, quote, gap, isQuote, blank, one, cut⟩ := outer.exists_second plain
  obtain ⟨front', quote', gap', isQuote', blank', one', rfl⟩ := inner.exists_second plain
  have closing : (gap ++ [')']).countP Reader.isQuote = 0 := by
    rw [List.countP_append, countP_isQuote_gap blank]
    decide
  have aligned : (before ++ front') ++ quote' :: (gap' ++ ')' :: after) = front ++ quote :: (gap ++ [')']) := by
    simpa using cut
  -- the two quotes of one are those of the other
  have counts := congrArg (List.countP Reader.isQuote) aligned
  rw [List.countP_append, List.countP_append, List.countP_append, List.countP_cons_of_pos isQuote,
    List.countP_cons_of_pos isQuote', one, one', closing] at counts
  have behind : gap' ++ ')' :: after = gap ++ [')'] := eq_of_last isQuote' isQuote (by omega) closing aligned
  have trimmed := congrArg Text.trimLeft behind
  rw [Text.trimLeft_append blank', Text.trimLeft_append blank, Text.trimLeft_cons (by decide),
    Text.trimLeft_cons (by decide)] at trimmed
  exact (List.cons.inj trimmed).2

end PatternLint
