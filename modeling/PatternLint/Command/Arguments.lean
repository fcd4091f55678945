import PatternLint.Command

/-!
# Command lines

A command line is the name of a command, and options and operands in any order. The value of an option follows
an equals sign or is the next argument, which then must not look like an option itself. Such a value is judged
only when a later argument settles the option, so that of two mistakes the later one can come first: settling is
what every option and operand does that has a place, and an argument without a place does not. After two dashes
there are only operands.
-/
namespace PatternLint.Command

/-! ### Arguments -/

/-- What an argument is by its spelling. -/
inductive Argument where
  /-- Two dashes. -/
  | separator
  /-- A name after two dashes, with a value if there is an equals sign. -/
  | long (name : Text) (value : Option Text)
  /-- Letters after one dash. -/
  | short (letter : Char)
  /-- Anything else. A single dash is a word. -/
  | word (text : Text)
  deriving Repr, DecidableEq

def Argument.ofText : Text → Argument
  | ['-', '-'] => separator
  | '-' :: '-' :: rest =>
    long (rest.takeWhile (· ≠ '=')) (if rest.contains '=' then some (rest.dropWhile (· ≠ '=')).tail else none)
  | '-' :: letter :: _ => short letter
  | text => word text

/-! ### Forms -/

/-- The form of a command line, given by the name of the command. -/
inductive Form where
  | version | lint | check | rules
  deriving Repr, DecidableEq

/-- An option that takes a value. -/
inductive Setting where
  | root | output
  deriving Repr, DecidableEq

/-- What the name of an option stands for. -/
inductive Meaning where
  | setting (setting : Setting)
  | switch
  | help
  deriving Repr, DecidableEq

namespace Form

def ofName? (name : Text) : Option Form :=
  if name = "version".toList then some version
  else if name = "lint".toList then some lint
  else if name = "check".toList then some check
  else if name = "rules".toList then some rules
  else none

def meaning? (form : Form) (name : Text) : Option Meaning :=
  if name = "help".toList then some .help
  else
    match form with
    | version => none
    | lint =>
      if name = "repo-root".toList then some (.setting .root)
      else if name = "output".toList then some (.setting .output)
      else if name = "deny-warnings".toList then some .switch
      else none
    | check => if name = "publish".toList then some .switch else none
    | rules => if name = "output".toList then some (.setting .output) else none

/-- Whether a form has a place for an operand after some others. -/
def takesOperand (form : Form) (others : List Text) : Bool :=
  match form with
  | version | rules => false
  | lint => true
  | check => others.isEmpty

end Form

/-! ### Reading -/

/-- What has been read of a command line. -/
structure Reading where
  /-- The option that waits to be settled, with its value once there is one. -/
  waiting : Option (Setting × Option Text) := none
  root : Option Text := none
  output : Option OutputForm := none
  switched : Bool := false
  operands : List Text := []
  deriving Repr, DecidableEq

namespace Reading

def set (reading : Reading) (setting : Setting) (value : Text) : Except UsageError Reading :=
  match setting with
  | .root => if reading.root.isSome then .error .repeatedOption else .ok { reading with root := some value }
  | .output =>
    if reading.output.isSome then .error .repeatedOption
    else
      match OutputForm.ofName? value with
      | none => .error .invalidValue
      | some form => .ok { reading with output := some form }

def settle (reading : Reading) : Except UsageError Reading :=
  match reading.waiting with
  | none => .ok reading
  | some (_, none) => .error .invalidValue
  | some (setting, some value) => set { reading with waiting := none } setting value

def switch (reading : Reading) : Except UsageError Reading :=
  if reading.switched then .error .repeatedOption else .ok { reading with switched := true }

def operand (form : Form) (reading : Reading) (text : Text) : Except UsageError Reading :=
  if form.takesOperand reading.operands then
    reading.settle.map fun reading => { reading with operands := reading.operands ++ [text] }
  else .error .unknownArgument

def option (form : Form) (reading : Reading) (name : Text) (value : Option Text) : Except UsageError Reading :=
  match form.meaning? name, value with
  | none, _ => .error .unknownArgument
  | some (.setting setting), none =>
    reading.settle.map fun reading => { reading with waiting := some (setting, none) }
  | some (.setting setting), some value => reading.settle.bind fun reading => reading.set setting value
  | some .switch, none => reading.settle.bind switch
  | some .help, none => reading.settle.bind fun _ => .error .help
  | some _, some _ => .error .surplusValue

/-- Reads a word: the value that an option waits for, or an operand. -/
def word (form : Form) (reading : Reading) (text : Text) : Except UsageError Reading :=
  match reading.waiting with
  | some (setting, none) => .ok { reading with waiting := some (setting, some text) }
  | _ => reading.operand form text

/-- Reads letters after a dash. Only the one that asks for help means something. -/
def letter (reading : Reading) (letter : Char) : Except UsageError Reading :=
  if letter = 'h' then reading.settle.bind fun _ => .error .help else .error .unknownArgument

def allOperands (form : Form) (reading : Reading) : List Text → Except UsageError Reading
  | [] => .ok reading
  | text :: texts => (reading.operand form text).bind fun reading => reading.allOperands form texts

def all (form : Form) (reading : Reading) : List Text → Except UsageError Reading
  | [] => .ok reading
  | text :: texts =>
    match Argument.ofText text with
    | .separator => reading.allOperands form texts
    | .long name value => (reading.option form name value).bind fun reading => reading.all form texts
    | .short letter => (reading.letter letter).bind fun reading => reading.all form texts
    | .word text => (reading.word form text).bind fun reading => reading.all form texts

end Reading

def ofReading (form : Form) (reading : Reading) : Except UsageError Command :=
  match form with
  | .version => .ok .version
  | .lint => .ok (.lint ⟨reading.root, reading.output, reading.switched, reading.operands⟩)
  | .check =>
    match reading.operands.head? with
    | none => .error .missingOperand
    | some file => .ok (.check file (if reading.switched then .publish else .run))
  | .rules => .ok (.rules reading.output)

def ofForm (form : Form) (arguments : List Text) : Except UsageError Command :=
  ((Reading.all form {} arguments).bind Reading.settle).bind (ofReading form)

/-! ### The first argument -/

/-- Why a call for help gives no command: what it asks about is help, or is unknown. -/
def helpError : List Text → UsageError
  | [] => .help
  | [name] => if name = "help".toList || (Form.ofName? name).isSome then .help else .unknownCommand
  | _ => .unknownCommand

def firstError (first : Text) (rest : List Text) : UsageError :=
  match Argument.ofText first with
  | .separator =>
    match rest with
    | [] => .nothing
    | name :: _ =>
      if name = "help".toList || (Form.ofName? name).isSome then .unknownArgument else .unknownCommand
  | .long name value =>
    if name = "help".toList then if value.isSome then .surplusValue else .help
    else if name = "version".toList then if value.isSome then .surplusValue else .version
    else .unknownArgument
  | .short letter => if letter = 'h' then .help else if letter = 'V' then .version else .unknownArgument
  | .word text => if text = "help".toList then helpError rest else .unknownCommand

def ofArguments : List Text → Except UsageError Command
  | [] => .error .nothing
  | first :: rest =>
    match Form.ofName? first with
    | some form => ofForm form rest
    | none => .error (firstError first rest)

end PatternLint.Command
