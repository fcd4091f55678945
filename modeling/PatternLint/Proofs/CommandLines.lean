import Mathlib.Data.List.TakeWhile
import PatternLint.Command.Arguments

/-!
# Command lines that differ in an option

Two readings of a command line to lint that are the same but for the switch and the form of output stay so whatever
is read next, if this is no switch (`Reading.all_follows`). So a switch in front of a command line without one is all
that it adds to the request (`ofArguments_switched`), and another form of output changes nothing but this form
(`ofArguments_reformed`).
-/
namespace PatternLint

theorem OutputForm.ofName?_name (form : OutputForm) : ofName? form.name = some form := by
  cases form <;> decide

namespace Command

/-- The option that makes warnings count. -/
def switchOption : Text := "--deny-warnings".toList

/-- The option that names the form of output. -/
def outputOption : Text := "--output".toList

/-- The mark behind which there are only operands. -/
def separator : Text := ['-', '-']

/-- A command line without the switch. What follows the separator are operands. -/
def Unswitched (arguments : List Text) : Prop := switchOption ∉ arguments.takeWhile (· ≠ separator)

theorem unswitched_cons {text : Text} {texts : List Text} (first : text ≠ separator) :
    Unswitched (text :: texts) ↔ switchOption ≠ text ∧ Unswitched texts := by
  rw [Unswitched, List.takeWhile_cons_of_pos (by simpa using first), List.mem_cons, not_or]
  rfl

theorem unswitched_append {before after : List Text} (undivided : separator ∉ before) :
    Unswitched (before ++ after) ↔ Unswitched before ∧ Unswitched after := by
  induction before with
  | nil => exact (and_iff_right List.not_mem_nil).symm
  | cons text before ih =>
    obtain ⟨first, rest⟩ := not_or.mp (List.mem_cons.not.mp undivided)
    rw [List.cons_append, unswitched_cons (Ne.symm first), unswitched_cons (Ne.symm first), ih rest, and_assoc]

/-! ### Arguments -/

theorem Argument.eq_separator_of_ofText {text : Text} (read : Argument.ofText text = .separator) :
    text = Command.separator := by
  unfold ofText at read
  split at read
  · rfl
  all_goals cases read

theorem Argument.eq_of_ofText_long {text name : Text} (read : ofText text = .long name none) :
    text = '-' :: '-' :: name := by
  unfold ofText at read
  split at read
  · cases read
  · next rest _ =>
    by_cases valued : rest.contains '=' = true
    · rw [if_pos valued] at read
      cases read
    · have free : '=' ∉ rest := by simpa using valued
      have whole : rest.takeWhile (· ≠ '=') = rest :=
        List.takeWhile_eq_self_iff.mpr fun c member => by
          rw [decide_eq_true_eq]
          rintro rfl
          exact free member
      rw [if_neg valued, whole] at read
      rw [(Argument.long.inj read).1]
  all_goals cases read

theorem Form.eq_of_meaning?_switch {name : Text} (meaning : Form.lint.meaning? name = some .switch) :
    name = "deny-warnings".toList := by
  rw [meaning?] at meaning
  split at meaning
  · cases meaning
  · split_ifs at meaning with root output switch
    · cases meaning
    · cases meaning
    · exact switch

/-- Without the switch, an option is no switch. -/
theorem Argument.not_switch {text name : Text} {value : Option Text} (other : text ≠ switchOption)
    (read : ofText text = .long name value) (meaning : Form.lint.meaning? name = some .switch) : value ≠ none := by
  rintro rfl
  apply other
  rw [eq_of_ofText_long read, Form.eq_of_meaning?_switch meaning]
  rfl

namespace Reading

/-! ### Readings that differ -/

/-- The outcome of a second reading where a first one succeeds. -/
def Follows (related : Reading → Reading → Prop) (first second : Except UsageError Reading) : Prop :=
  ∀ next, first = .ok next → ∃ other, second = .ok other ∧ related next other

section
variable {related after : Reading → Reading → Prop}

theorem follows_ok {a b : Reading} (same : related a b) : Follows related (.ok a) (.ok b) := by
  rintro next ⟨⟩
  exact ⟨b, rfl, same⟩

theorem follows_error (error : UsageError) (second : Except UsageError Reading) :
    Follows related (.error error) second := by
  rintro next ⟨⟩

theorem Follows.bind {first second : Except UsageError Reading} (follows : Follows related first second)
    {onward other : Reading → Except UsageError Reading}
    (goesOn : ∀ a b, related a b → Follows after (onward a) (other b)) :
    Follows after (first.bind onward) (second.bind other) := by
  intro next found
  cases first with
  | error error => cases found
  | ok a =>
    obtain ⟨b, read, same⟩ := follows a rfl
    obtain ⟨last, found, alike⟩ := goesOn a b same next found
    exact ⟨last, by rw [read]; exact found, alike⟩

theorem Follows.mono {first second : Except UsageError Reading} (follows : Follows related first second)
    (weaker : ∀ a b, related a b → after a b) : Follows after first second := by
  intro next found
  obtain ⟨other, read, same⟩ := follows next found
  exact ⟨other, read, weaker next other same⟩

theorem Follows.map {first second : Except UsageError Reading} (follows : Follows related first second)
    {onward : Reading → Reading} (goesOn : ∀ a b, related a b → after (onward a) (onward b)) :
    Follows after (first.map onward) (second.map onward) := by
  intro next found
  cases first with
  | error error => cases found
  | ok a =>
    cases found
    obtain ⟨b, read, same⟩ := follows a rfl
    exact ⟨onward b, by rw [read]; rfl, goesOn a b same⟩

end

/-- How far the form of output of two readings differs: not at all, or in that the one asks for one form and the other
    for another, be it settled or not. -/
inductive Outputs (a b : Reading) : Option (OutputForm × OutputForm) → Prop
  | same : b.waiting = a.waiting → b.output = a.output → Outputs a b none
  | settled {x y : OutputForm} : b.waiting = a.waiting → a.output = some x → b.output = some y →
      Outputs a b (some (x, y))
  | waiting {x y : OutputForm} : a.waiting = some (.output, some x.name) → b.waiting = some (.output, some y.name) →
      b.output = a.output → Outputs a b (some (x, y))

/-- Nothing else in the readings counts for this. -/
theorem Outputs.congr {a b a' b' : Reading} {forms : Option (OutputForm × OutputForm)} (outputs : Outputs a b forms)
    (waitingA : a'.waiting = a.waiting) (waitingB : b'.waiting = b.waiting) (outputA : a'.output = a.output)
    (outputB : b'.output = b.output) : Outputs a' b' forms := by
  cases outputs with
  | same waiting output => exact .same (by rw [waitingA, waitingB, waiting]) (by rw [outputA, outputB, output])
  | settled waiting x y => exact .settled (by rw [waitingA, waitingB, waiting]) (outputA.trans x) (outputB.trans y)
  | waiting x y output => exact .waiting (waitingA.trans x) (waitingB.trans y) (by rw [outputA, outputB, output])

/-- Two readings that are the same but for the form of output and the switch. -/
structure SameBut (forms : Option (OutputForm × OutputForm)) (switches : Bool × Bool) (a b : Reading) : Prop where
  root : b.root = a.root
  operands : b.operands = a.operands
  switched : (a.switched, b.switched) = switches
  outputs : Outputs a b forms

/-- Two such readings in which no option waits to be settled. -/
structure SettledBut (forms : Option (OutputForm × OutputForm)) (switches : Bool × Bool) (a b : Reading) : Prop extends
    SameBut forms switches a b where
  clear : a.waiting = none ∧ b.waiting = none

section
variable {forms : Option (OutputForm × OutputForm)} {switches : Bool × Bool} {a b : Reading}

/-! ### Steps -/

theorem set_follows (same : SettledBut forms switches a b) (setting : Setting) (value : Text) :
    Follows (SettledBut forms switches) (a.set setting value) (b.set setting value) := by
  obtain ⟨⟨root, operands, switched, outputs⟩, clear⟩ := same
  cases setting with
  | root =>
    simp only [set, root]
    split
    · exact follows_error _ _
    · exact follows_ok ⟨⟨rfl, operands, switched, outputs.congr rfl rfl rfl rfl⟩, clear⟩
  | output =>
    cases outputs with
    | same waiting output =>
      simp only [set, output]
      split
      · exact follows_error _ _
      · split
        · exact follows_error _ _
        · exact follows_ok ⟨⟨root, operands, switched, .same waiting rfl⟩, clear⟩
    | settled waiting x y =>
      simp only [set, x]
      exact follows_error _ _
    | waiting x => cases clear.1.symm.trans x

theorem settle_follows (same : SameBut forms switches a b) :
    Follows (SettledBut forms switches) a.settle b.settle := by
  obtain ⟨root, operands, switched, outputs⟩ := same
  -- the option that waits, if there is one, is the same for both or is the form of output
  have alike (waiting : b.waiting = a.waiting) (own : Outputs a b forms)
      (cleared : Outputs { a with waiting := none } { b with waiting := none } forms) :
      Follows (SettledBut forms switches) a.settle b.settle := by
    rw [settle, settle, waiting]
    split
    · next none => exact follows_ok ⟨⟨root, operands, switched, own⟩, none, waiting.trans none⟩
    · exact follows_error _ _
    · exact @set_follows _ _ { a with waiting := none } { b with waiting := none }
        ⟨⟨root, operands, switched, cleared⟩, rfl, rfl⟩ _ _
  cases outputs with
  | same waiting output => exact alike waiting (.same waiting output) (.same rfl output)
  | settled waiting x y => exact alike waiting (.settled waiting x y) (.settled rfl x y)
  | @waiting x y waitingX waitingY output =>
    rw [settle, settle, waitingX, waitingY]
    simp only [set, output, OutputForm.ofName?_name]
    split
    · exact follows_error _ _
    · exact follows_ok ⟨⟨root, operands, switched, .settled rfl rfl rfl⟩, rfl, rfl⟩

/-- An option that waits from now on is the same for both, unless the form of output already waits with its value. -/
theorem SameBut.await (same : SameBut forms switches a b) (free : ∀ value, a.waiting ≠ some (.output, some value))
    (waiting : Option (Setting × Option Text)) :
    SameBut forms switches { a with waiting := waiting } { b with waiting := waiting } := by
  obtain ⟨root, operands, switched, outputs⟩ := same
  refine ⟨root, operands, switched, ?_⟩
  cases outputs with
  | same _ output => exact .same rfl output
  | settled _ x y => exact .settled rfl x y
  | waiting x => exact absurd x (free _)

theorem SettledBut.free (same : SettledBut forms switches a b) (value : Text) :
    a.waiting ≠ some (.output, some value) := by
  rw [same.clear.1]
  exact nofun

theorem operand_follows (same : SameBut forms switches a b) (text : Text) :
    Follows (SameBut forms switches) (a.operand .lint text) (b.operand .lint text) := by
  simp only [operand, Form.takesOperand, if_true]
  refine (settle_follows same).map fun a b settled => ?_
  obtain ⟨⟨root, operands, switched, outputs⟩, -⟩ := settled
  exact ⟨root, by rw [operands], switched, outputs.congr rfl rfl rfl rfl⟩

/-- Readings that are the same and now ask for two forms of output differ in this form. -/
theorem SettledBut.asked (same : SettledBut none switches a b) (x y : OutputForm) :
    SameBut (some (x, y)) switches { a with waiting := some (.output, some x.name) }
      { b with waiting := some (.output, some y.name) } := by
  obtain ⟨⟨root, operands, switched, outputs⟩, -⟩ := same
  cases outputs with
  | same _ output => exact ⟨root, operands, switched, .waiting rfl rfl output⟩

theorem SettledBut.set_asked (same : SettledBut none switches a b) (x y : OutputForm) :
    Follows (SameBut (some (x, y)) switches) (a.set .output x.name) (b.set .output y.name) := by
  obtain ⟨⟨root, operands, switched, outputs⟩, -⟩ := same
  cases outputs with
  | same waiting output =>
    simp only [set, output, OutputForm.ofName?_name]
    split
    · exact follows_error _ _
    · exact follows_ok ⟨root, operands, switched, .settled waiting rfl rfl⟩

theorem option_follows (same : SameBut forms switches a b) {name : Text} {value : Option Text}
    (other : Form.lint.meaning? name = some .switch → value ≠ none) :
    Follows (SameBut forms switches) (a.option .lint name value) (b.option .lint name value) := by
  unfold option
  cases meaning : Form.lint.meaning? name with
  | none => exact follows_error _ _
  | some meant =>
    cases meant with
    | setting setting =>
      cases value with
      | none => exact (settle_follows same).map fun a b settled => settled.await settled.free _
      | some value =>
        refine (settle_follows same).bind fun a b settled => ?_
        exact (set_follows settled setting value).mono fun a b settled => settled.toSameBut
    | switch =>
      cases value with
      | none => exact absurd rfl (other meaning)
      | some value => exact follows_error _ _
    | help =>
      cases value with
      | none => exact (settle_follows same).bind fun a b _ => follows_error _ _
      | some value => exact follows_error _ _

theorem word_of_closed {form : Form} {reading : Reading} (closed : ∀ setting, reading.waiting ≠ some (setting, none))
    (text : Text) : reading.word form text = reading.operand form text := by
  rw [word]
  split
  · next waiting => exact absurd waiting (closed _)
  · rfl

theorem word_follows (same : SameBut forms switches a b) (text : Text) :
    Follows (SameBut forms switches) (a.word .lint text) (b.word .lint text) := by
  -- either both wait for a value or none does
  have alike : (∃ setting, a.waiting = some (setting, none) ∧ b.waiting = some (setting, none)) ∨
      ((∀ setting, a.waiting ≠ some (setting, none)) ∧ ∀ setting, b.waiting ≠ some (setting, none)) := by
    by_cases waits : ∃ setting, a.waiting = some (setting, none)
    · obtain ⟨setting, waitsA⟩ := waits
      cases same.outputs with
      | same waiting => exact .inl ⟨setting, waitsA, waiting.trans waitsA⟩
      | settled waiting => exact .inl ⟨setting, waitsA, waiting.trans waitsA⟩
      | waiting x => cases waitsA.symm.trans x
    · have none := not_exists.mp waits
      cases same.outputs with
      | same waiting => exact .inr ⟨none, waiting ▸ none⟩
      | settled waiting => exact .inr ⟨none, waiting ▸ none⟩
      | waiting _ y => exact .inr ⟨none, fun setting found => by cases y.symm.trans found⟩
  rcases alike with ⟨setting, waitsA, waitsB⟩ | ⟨closedA, closedB⟩
  · rw [word, word, waitsA, waitsB]
    exact follows_ok (same.await (by simp [waitsA]) _)
  · rw [word_of_closed closedA, word_of_closed closedB]
    exact operand_follows same text

theorem letter_follows (same : SameBut forms switches a b) (letter : Char) :
    Follows (SameBut forms switches) (a.letter letter) (b.letter letter) := by
  rw [Reading.letter, Reading.letter]
  split
  · exact (settle_follows same).bind fun a b _ => follows_error _ _
  · exact follows_error _ _

/-! ### Runs -/

theorem allOperands_follows (texts : List Text) (same : SameBut forms switches a b) :
    Follows (SameBut forms switches) (a.allOperands .lint texts) (b.allOperands .lint texts) := by
  induction texts generalizing a b with
  | nil => exact follows_ok same
  | cons text texts ih => exact (operand_follows same text).bind fun a b same => ih same

/-- Reading on without the switch keeps two readings the same but for what they differ in. -/
theorem all_follows (texts : List Text) (unswitched : Unswitched texts)
    (same : SameBut forms switches a b) :
    Follows (SameBut forms switches) (a.all .lint texts) (b.all .lint texts) := by
  induction texts generalizing a b with
  | nil => exact follows_ok same
  | cons text texts ih =>
    by_cases last : text = separator
    · subst last
      exact allOperands_follows texts same
    · obtain ⟨other, unswitched⟩ := (unswitched_cons last).mp unswitched
      have onward := fun a b (same : SameBut forms switches a b) => ih unswitched same
      rw [all, all]
      rcases read : Argument.ofText text with - | ⟨name, value⟩ | letter | word
      · exact allOperands_follows texts same
      · exact (option_follows same (Argument.not_switch (Ne.symm other) read)).bind onward
      · exact (letter_follows same letter).bind onward
      · exact (word_follows same word).bind onward

end

theorem all_append {before : List Text} (after : List Text) (undivided : separator ∉ before) (form : Form)
    (reading : Reading) :
    reading.all form (before ++ after) = (reading.all form before).bind fun reading => reading.all form after := by
  induction before generalizing reading with
  | nil => rfl
  | cons text before ih =>
    rw [List.mem_cons, not_or] at undivided
    have onward (first : Except UsageError Reading) :
        (first.bind fun reading => reading.all form (before ++ after)) =
          (first.bind fun reading => reading.all form before).bind fun reading => reading.all form after := by
      rw [funext (ih undivided.2)]
      cases first with
      | error error => rfl
      | ok reading => rfl
    rw [List.cons_append, all, all]
    rcases read : Argument.ofText text with - | ⟨name, value⟩ | letter | word
    · exact absurd (Argument.eq_separator_of_ofText read).symm undivided.1
    · exact onward _
    · exact onward _
    · exact onward _

theorem all_switch (texts : List Text) :
    all .lint {} (switchOption :: texts) = all .lint { switched := true } texts := by
  have read : Argument.ofText switchOption = .long "deny-warnings".toList none := by decide
  rw [all, read]
  rfl

/-- A form of output asked for in two arguments. -/
theorem all_outputOption (reading : Reading) (form : OutputForm) (texts : List Text) :
    reading.all .lint (outputOption :: form.name :: texts) =
      reading.settle.bind fun reading =>
        { reading with waiting := some (.output, some form.name) }.all .lint texts := by
  have read : Argument.ofText outputOption = .long "output".toList none := by decide
  have name : Argument.ofText form.name = .word form.name := by cases form <;> decide
  rw [all, read]
  change (reading.settle.map _).bind _ = _
  cases reading.settle with
  | error error => rfl
  | ok settled =>
    change all .lint _ (form.name :: texts) = _
    rw [all, name]
    rfl

/-- A form of output asked for in one argument. -/
theorem all_outputOption_joined (reading : Reading) (form : OutputForm) (texts : List Text) :
    reading.all .lint ((outputOption ++ '=' :: form.name) :: texts) =
      (reading.settle.bind fun reading => reading.set .output form.name).bind fun reading =>
        reading.all .lint texts := by
  have read : Argument.ofText (outputOption ++ '=' :: form.name) = .long "output".toList (some form.name) := by
    cases form <;> decide
  rw [all, read]
  rfl

end Reading

/-! ### Commands to lint -/

theorem ofArguments_lint (arguments : List Text) :
    ofArguments ("lint".toList :: arguments) = ofForm .lint arguments := rfl

/-- What a reading asks to lint. -/
def Reading.request (reading : Reading) : LintRequest where
  root := reading.root
  output := reading.output
  denyWarnings := reading.switched
  paths := reading.operands

theorem ofForm_lint_eq_ok_iff {arguments : List Text} {command : Command} :
    ofForm .lint arguments = .ok command ↔
      ∃ reading, (Reading.all .lint {} arguments).bind Reading.settle = .ok reading ∧
        command = .lint reading.request := by
  rw [ofForm]
  cases (Reading.all .lint {} arguments).bind Reading.settle with
  | error error => exact ⟨nofun, nofun⟩
  | ok reading =>
    constructor
    · rintro ⟨⟩
      exact ⟨reading, rfl, rfl⟩
    · rintro ⟨_, ⟨⟩, rfl⟩
      rfl

/-- Command lines whose readings are the same but for what they differ in ask for commands that do so. -/
theorem ofArguments_follows {first second : List Text} {forms : Option (OutputForm × OutputForm)}
    {switches : Bool × Bool}
    (follows : Reading.Follows (Reading.SameBut forms switches) (Reading.all .lint {} first)
      (Reading.all .lint {} second))
    {command : Command} (accepted : ofArguments ("lint".toList :: first) = .ok command) :
    ∃ a b, Reading.SettledBut forms switches a b ∧ command = .lint a.request ∧
      ofArguments ("lint".toList :: second) = .ok (.lint b.request) := by
  rw [ofArguments_lint, ofForm_lint_eq_ok_iff] at accepted
  obtain ⟨a, read, rfl⟩ := accepted
  obtain ⟨b, read', same⟩ := (follows.bind fun _ _ same => Reading.settle_follows same) a read
  exact ⟨a, b, same, rfl, ofForm_lint_eq_ok_iff.mpr ⟨b, read', rfl⟩⟩

/-- A switch in front of a command line without one is all that it adds. -/
theorem ofArguments_switched {arguments : List Text} {command : Command}
    (accepted : ofArguments ("lint".toList :: arguments) = .ok command)
    (unswitched : Unswitched arguments) :
    ∃ request : LintRequest, command = .lint request ∧ request.denyWarnings = false ∧
      ofArguments ("lint".toList :: switchOption :: arguments) = .ok (.lint { request with denyWarnings := true }) := by
  have follows := Reading.all_follows arguments unswitched
    (a := {}) (b := { switched := true }) ⟨rfl, rfl, rfl, .same rfl rfl⟩
  rw [← Reading.all_switch] at follows
  obtain ⟨a, b, same, rfl, strict⟩ := ofArguments_follows follows accepted
  obtain ⟨⟨root, operands, switched, outputs⟩, -⟩ := same
  obtain ⟨unset, set⟩ := Prod.mk.inj switched
  cases outputs with
  | same _ output =>
    refine ⟨a.request, rfl, unset, ?_⟩
    rw [strict, Reading.request, Reading.request, root, operands, output, set]

/-- Two command lines that are the same but for a form of output that the one asks for and the other replaces. -/
inductive Reformed (form : OutputForm) : List Text → List Text → Prop
  | apart {before : List Text} (undivided : separator ∉ before) (asked : OutputForm) (after : List Text) :
      Reformed form (before ++ outputOption :: asked.name :: after) (before ++ outputOption :: form.name :: after)
  | joined {before : List Text} (undivided : separator ∉ before) (asked : OutputForm) (after : List Text) :
      Reformed form (before ++ (outputOption ++ '=' :: asked.name) :: after)
        (before ++ (outputOption ++ '=' :: form.name) :: after)

/-- The two readings of such command lines are the same but for the form of output. -/
theorem Reformed.follows {form : OutputForm} {arguments reformed : List Text}
    (change : Reformed form arguments reformed) (unswitched : Unswitched arguments) :
    ∃ asked, Reading.Follows (Reading.SameBut (some (asked, form)) (false, false)) (Reading.all .lint {} arguments)
      (Reading.all .lint {} reformed) := by
  have start : Reading.SameBut none (false, false) {} {} := ⟨rfl, rfl, rfl, .same rfl rfl⟩
  cases change with
  | @apart before undivided asked after =>
    refine ⟨asked, ?_⟩
    have name : separator ≠ asked.name := by cases asked <;> decide
    obtain ⟨unswitchedBefore, unswitched⟩ := (unswitched_append undivided).mp unswitched
    obtain ⟨-, unswitched⟩ := (unswitched_cons (by decide)).mp unswitched
    obtain ⟨-, unswitchedAfter⟩ := (unswitched_cons name.symm).mp unswitched
    rw [Reading.all_append _ undivided, Reading.all_append _ undivided]
    refine (Reading.all_follows before unswitchedBefore start).bind fun a b same => ?_
    rw [Reading.all_outputOption, Reading.all_outputOption]
    refine (Reading.settle_follows same).bind fun a b settled => ?_
    exact Reading.all_follows after unswitchedAfter (settled.asked asked form)
  | @joined before undivided asked after =>
    refine ⟨asked, ?_⟩
    have name : outputOption ++ '=' :: asked.name ≠ separator := by cases asked <;> decide
    obtain ⟨unswitchedBefore, unswitched⟩ := (unswitched_append undivided).mp unswitched
    obtain ⟨-, unswitchedAfter⟩ := (unswitched_cons name).mp unswitched
    rw [Reading.all_append _ undivided, Reading.all_append _ undivided]
    refine (Reading.all_follows before unswitchedBefore start).bind fun a b same => ?_
    rw [Reading.all_outputOption_joined, Reading.all_outputOption_joined]
    refine ((Reading.settle_follows same).bind fun a b settled => settled.set_asked asked form).bind fun a b same => ?_
    exact Reading.all_follows after unswitchedAfter same

/-- Another form of output is all that it changes. -/
theorem ofArguments_reformed {form : OutputForm} {arguments reformed : List Text} {command : Command}
    (accepted : ofArguments ("lint".toList :: arguments) = .ok command)
    (unswitched : Unswitched arguments) (change : Reformed form arguments reformed) :
    ∃ request : LintRequest, command = .lint request ∧ (∃ asked, request.output = some asked) ∧
      ofArguments ("lint".toList :: reformed) = .ok (.lint { request with output := some form }) := by
  obtain ⟨asked, follows⟩ := change.follows unswitched
  obtain ⟨a, b, same, rfl, read⟩ := ofArguments_follows follows accepted
  obtain ⟨⟨root, operands, switched, outputs⟩, clear⟩ := same
  obtain ⟨unset, unset'⟩ := Prod.mk.inj switched
  refine ⟨a.request, rfl, ?_⟩
  cases outputs with
  | settled _ x y =>
    refine ⟨⟨asked, x⟩, ?_⟩
    rw [read, Reading.request, Reading.request, root, operands, y, unset, unset']
  | waiting x => cases clear.1.symm.trans x

end Command
end PatternLint
