import PatternLint.Proofs.Text
import PatternLint.Rule.Sources

/-!
# Counting brackets

What stands before the first comment mark of a line is its code (`CodeOf`). The depth of a kind of brackets at
the end of a source is the number of its openers less the number of its closers in the code of all lines
(`get_depthsAtEnd`), so nothing is reported just for the sources in whose code each kind balances
(`findings_eq_nil_iff`).
-/
namespace PatternLint.Brackets

/-! ### The code of a line -/

/-- What stands before the first comment mark of a line, and all of the line if it has none. -/
structure CodeOf (line code : Text) : Prop where
  starts : code <+: line
  ends : code = line ∨ code ++ commentMark <+: line
  first : ∀ before, before ++ commentMark <+: line → code.length ≤ before.length

theorem codeOf_beforeComment (line : Text) : CodeOf line (beforeComment line) := by
  induction line using beforeComment.induct with
  | case1 => exact ⟨List.prefix_rfl, .inl rfl, by simp [commentMark, beforeComment]⟩
  | case2 c =>
    refine ⟨List.prefix_rfl, .inl rfl, fun before starts => ?_⟩
    have := starts.length_le
    simp [commentMark] at this
  | case3 c d text mark =>
    rw [beforeComment, if_pos mark]
    obtain ⟨rfl, rfl⟩ := mark
    exact ⟨List.nil_prefix, .inr ⟨text, rfl⟩, by simp⟩
  | case4 c d text noMark ih =>
    rw [beforeComment, if_neg noMark]
    refine ⟨(List.prefix_cons_inj c).mpr ih.starts, ?_, fun before starts => ?_⟩
    · rcases ih.ends with whole | marked
      · exact .inl (by rw [whole])
      · exact .inr ((List.prefix_cons_inj c).mpr marked)
    · cases before with
      | nil =>
        obtain ⟨rest, is⟩ := starts
        simp only [commentMark, List.nil_append, List.cons_append, List.cons.injEq] at is
        exact absurd ⟨is.1.symm, is.2.1.symm⟩ noMark
      | cons e before =>
        simp only [List.cons_append, List.cons_prefix_cons] at starts
        exact Nat.succ_le_succ (ih.first before starts.2)

theorem CodeOf.unique {line code other : Text} (one : CodeOf line code) (two : CodeOf line other) : code = other := by
  -- the shorter of two different codes of a line would have a comment mark behind it
  have shorter : ∀ {a b : Text}, CodeOf line a → CodeOf line b → a.length ≤ b.length := by
    intro a b ofA ofB
    rcases ofB.ends with rfl | marked
    · exact ofA.starts.length_le
    · exact ofA.first b marked
  exact (List.prefix_of_prefix_length_le one.starts two.starts (shorter one two)).eq_of_length
    (Nat.le_antisymm (shorter one two) (shorter two one))

theorem codeOf_iff {line code : Text} : CodeOf line code ↔ code = beforeComment line :=
  ⟨fun is => is.unique (codeOf_beforeComment line), fun same => same ▸ codeOf_beforeComment line⟩

theorem forall₂_codeOf_iff {lines codes : List Text} :
    List.Forall₂ CodeOf lines codes ↔ codes = lines.map beforeComment := by
  constructor
  · intro related
    induction related with
    | nil => rfl
    | cons is _ ih => rw [codeOf_iff.mp is, ih, List.map_cons]
  · rintro rfl
    induction lines with
    | nil => exact .nil
    | cons line lines ih => exact .cons (codeOf_beforeComment line) ih

/-! ### Depths -/

theorem get_step (depths : Depths) (c : Char) (bracket : Bracket) :
    (depths.step c).get bracket = depths.get bracket + Depths.change bracket c := by
  cases bracket <;> rfl

theorem opener_ne_closer (bracket : Bracket) : bracket.opener ≠ bracket.closer := by cases bracket <;> decide

/-- How many more brackets of a kind a text opens than it closes. -/
def excess (bracket : Bracket) (text : Text) : Int := text.count bracket.opener - text.count bracket.closer

theorem excess_append (bracket : Bracket) (a b : Text) : excess bracket (a ++ b) = excess bracket a + excess bracket b := by
  simp only [excess, List.count_append]
  omega

theorem excess_singleton (bracket : Bracket) (c : Char) : excess bracket [c] = Depths.change bracket c := by
  simp only [excess, Depths.change, List.count_singleton, beq_iff_eq]
  have differ := opener_ne_closer bracket
  by_cases opens : c = bracket.opener
  · simp [opens, differ]
  · by_cases closes : c = bracket.closer
    · simp [closes, Ne.symm differ]
    · simp [opens, closes]

theorem get_foldl_step (text : Text) (depths : Depths) (bracket : Bracket) :
    (text.foldl Depths.step depths).get bracket = depths.get bracket + excess bracket text := by
  induction text generalizing depths with
  | nil => simp [excess]
  | cons c text ih =>
    have split : excess bracket (c :: text) = excess bracket [c] + excess bracket text := excess_append bracket [c] text
    rw [List.foldl_cons, ih, get_step, split, excess_singleton, Int.add_assoc]

/-- What a source says outside its comments. -/
def code (source : Text) : Text := (source.lines.map beforeComment).flatten

/-- One scan over the code of all lines gives the depths at the end. -/
theorem depthsAtEnd_eq_foldl (source : Text) : depthsAtEnd source = (code source).foldl Depths.step {} := by
  rw [code, List.foldl_flatten, List.foldl_map]
  rfl

/-- The depth behind a text that is read from the start counts its brackets. -/
theorem get_foldl_start (text : Text) (bracket : Bracket) :
    (text.foldl Depths.step {}).get bracket = excess bracket text := by
  have zero : (({} : Depths).get bracket) = 0 := by cases bracket <;> rfl
  rw [get_foldl_step, zero, Int.zero_add]

/-- The depth at the end counts the brackets outside the comments. -/
theorem get_depthsAtEnd (source : Text) (bracket : Bracket) :
    (depthsAtEnd source).get bracket = excess bracket (code source) := by
  rw [depthsAtEnd_eq_foldl, get_foldl_start]

/-- The same excess of each kind of brackets gives the same findings. -/
theorem findings_congr {source other : Text}
    (same : ∀ bracket, excess bracket (code source) = excess bracket (code other)) : findings source = findings other := by
  simp only [findings, get_depthsAtEnd, same]

theorem mem_all (bracket : Bracket) : bracket ∈ Bracket.all := by cases bracket <;> decide

/-- No bracket is reported just for the sources in whose code the brackets of each kind are equal in number. -/
theorem findings_eq_nil_iff (source : Text) :
    findings source = [] ↔
      ∀ bracket : Bracket, (code source).count bracket.opener = (code source).count bracket.closer := by
  have level : ∀ bracket, (depthsAtEnd source).get bracket = 0 ↔
      (code source).count bracket.opener = (code source).count bracket.closer := by
    intro bracket
    rw [get_depthsAtEnd, excess]
    omega
  simp only [← level, findings, List.filterMap_eq_nil_iff]
  constructor
  · intro silent bracket
    by_contra off
    have := silent bracket (mem_all bracket)
    simp [off] at this
  · intro balanced bracket _
    simp [balanced bracket]

/-! ### Joined texts -/

theorem code_append_break (a b : Text) : code (a ++ '\n' :: b) = code a ++ code b := by
  simp [code, Text.lines_append_break]

end PatternLint.Brackets
