import PatternLint.Config.Settings
import PatternLint.Text.Escaped

/-!
# Settings in TOML

Reads those documents of TOML 1.0 that can hold settings: keys without dots, each set to a string, a boolean or
a list of strings. Tables, numbers and dates cannot be settings, so a document that has them is refused like one
that breaks the rules of the format.
-/
namespace PatternLint.Toml

/-- A value that a key can be set to. -/
inductive Value where
  | text (value : Text)
  | flag (value : Bool)
  | texts (values : List Text)
  deriving Repr, DecidableEq

def isSpace (c : Char) : Bool := c = ' ' || c = '\t'

/-- Whether a character may stand on a line: no control character but the tab. -/
def isLineChar (c : Char) : Bool := c = '\t' || (0x20 ≤ c.toNat && c.toNat ≠ 0x7f)

/-- The text behind a line break. -/
def lineBreak? : Text → Option Text
  | '\n' :: text => some text
  | '\r' :: '\n' :: text => some text
  | _ => none

/-- A text without blanks in front. -/
def skipSpaces (text : Text) : Text := text.dropWhile isSpace

/-- A text without a comment in front. -/
def skipComment (text : Text) : Text := if text.head? = some '#' then text.dropWhile isLineChar else text

/-- The next line, if nothing but blanks and a comment is left of this one. -/
def nextLine? (text : Text) : Option Text :=
  match skipComment (skipSpaces text) with
  | [] => some []
  | rest => lineBreak? rest

/-- A text without blanks, comments and line breaks in front; `steps` bounds their number. -/
def skipLines : (steps : Nat) → Text → Text
  | 0, text => text
  | steps + 1, text =>
    let rest := skipComment (skipSpaces text)
    match lineBreak? rest with
    | some next => skipLines steps next
    | none => rest

def escapes : Text.Escapes where
  char? c :=
    if c = 'b' then some '\x08' else if c = 't' then some '\t' else if c = 'n' then some '\n'
    else if c = 'f' then some '\x0c' else if c = 'r' then some '\r' else if c = '"' then some '"'
    else if c = '\\' then some '\\' else none
  digits? c := if c = 'u' then some 4 else if c = 'U' then some 8 else none

/-- The characters up to the closing quote of a string on one line, and the text behind it. In a string with
    escapes a backslash hides the next character (`hidden`). -/
def upToQuote (quote : Char) : (hidden : Bool) → Text → Option (Text × Text)
  | _, [] => none
  | hidden, c :: text =>
    if !isLineChar c then none
    else if !hidden && c = quote then some ([], text)
    else
      (upToQuote quote (!hidden && quote = '"' && c = '\\') text).map fun (inner, rest) => (c :: inner, rest)

/-- The characters of a string over several lines up to its closing quotes, and the text behind them. Up to two
    quotes may stand right before the closing three. `steps` bounds the number of characters. -/
def upToQuotes (quote : Char) : (steps : Nat) → (hidden : Bool) → Text → Option (Text × Text)
  | 0, _, _ => none
  | _, _, [] => none
  | steps + 1, hidden, c :: text =>
    if !hidden && c = quote then
      let quotes := (c :: text).takeWhile (· = quote)
      let rest := (c :: text).dropWhile (· = quote)
      if quotes.length < 3 then
        (upToQuotes quote steps false rest).map fun (inner, rest) => (quotes ++ inner, rest)
      else if quotes.length < 6 then some (quotes.drop 3, rest)
      else none
    else
      match lineBreak? (c :: text) with
      | some next => (upToQuotes quote steps false next).map fun (inner, rest) => ('\n' :: inner, rest)
      | none =>
        if isLineChar c then
          (upToQuotes quote steps (!hidden && quote = '"' && c = '\\') text).map fun (inner, rest) => (c :: inner, rest)
        else none

/-- A text without the line breaks that a backslash takes away, with all blanks and line breaks behind them.
    `steps` bounds the number of characters. -/
def joinLines : (steps : Nat) → Text → Text
  | 0, text => text
  | _, [] => []
  | steps + 1, '\\' :: text =>
    match skipSpaces text with
    | '\n' :: rest => joinLines steps (rest.dropWhile fun c => isSpace c || c = '\n')
    | _ =>
      match text with
      | [] => ['\\']
      | c :: rest => '\\' :: c :: joinLines steps rest
  | steps + 1, c :: text => c :: joinLines steps text

/-- A string over several lines, behind its opening quotes. A line break right behind them does not count. -/
def longString? (quote : Char) (text : Text) : Option (Text × Text) :=
  let text := (lineBreak? text).getD text
  match upToQuotes quote (text.length + 1) false text with
  | none => none
  | some (inner, rest) =>
    if quote = '"' then (Text.unescape escapes (joinLines inner.length inner)).map fun value => (value, rest)
    else some (inner, rest)

/-- A string on one line, behind its opening quote. -/
def shortString? (quote : Char) (text : Text) : Option (Text × Text) :=
  match upToQuote quote false text with
  | none => none
  | some (inner, rest) =>
    if quote = '"' then (Text.unescape escapes inner).map fun value => (value, rest) else some (inner, rest)

def string? : Text → Option (Text × Text)
  | '"' :: '"' :: '"' :: text => longString? '"' text
  | '\'' :: '\'' :: '\'' :: text => longString? '\'' text
  | '"' :: text => shortString? '"' text
  | '\'' :: text => shortString? '\'' text
  | _ => none

/-- The strings of a list, behind its opening bracket or a comma; `steps` bounds their number. -/
def strings? : (steps : Nat) → Text → Option (List Text × Text)
  | 0, _ => none
  | steps + 1, text =>
    match skipLines (text.length + 1) text with
    | ']' :: rest => some ([], rest)
    | text =>
      match string? text with
      | none => none
      | some (value, rest) =>
        match skipLines (rest.length + 1) rest with
        | ',' :: rest => (strings? steps rest).map fun (values, rest) => (value :: values, rest)
        | ']' :: rest => some ([value], rest)
        | _ => none

def value? : Text → Option (Value × Text)
  | 't' :: 'r' :: 'u' :: 'e' :: text => some (.flag true, text)
  | 'f' :: 'a' :: 'l' :: 's' :: 'e' :: text => some (.flag false, text)
  | '[' :: text => (strings? (text.length + 1) text).map fun (values, rest) => (.texts values, rest)
  | text => (string? text).map fun (value, rest) => (.text value, rest)

/-- Whether a character may stand in a key without quotes. -/
def isKeyChar (c : Char) : Bool := c.isAlphanum || c = '_' || c = '-'

def key? (text : Text) : Option (Text × Text) :=
  match text with
  | '"' :: text => shortString? '"' text
  | '\'' :: text => shortString? '\'' text
  | text =>
    match text.takeWhile isKeyChar with
    | [] => none
    | c :: key => some (c :: key, text.dropWhile isKeyChar)

/-- A key, an equals sign and a value, up to the next line. -/
def member? (text : Text) : Option ((Text × Value) × Text) :=
  match key? text with
  | none => none
  | some (key, rest) =>
    match skipSpaces rest with
    | '=' :: rest =>
      match value? (skipSpaces rest) with
      | none => none
      | some (value, rest) => (nextLine? rest).map fun next => ((key, value), next)
    | _ => none

/-- The keys and values of a document; `steps` bounds their number. -/
def members? : (steps : Nat) → Text → Option (List (Text × Value))
  | 0, _ => none
  | steps + 1, text =>
    match skipLines (text.length + 1) text with
    | [] => some []
    | text =>
      match member? text with
      | none => none
      | some (member, rest) => (members? steps rest).map (member :: ·)

def values : Settings.Values Value where
  text value := match value with
    | .text value => some (some value)
    | _ => none
  texts value := match value with
    | .texts values => some (some values)
    | _ => none
  flag value := match value with
    | .flag value => some (some value)
    | _ => none

/-- The settings of a document. A byte order mark may stand in front. -/
def settings? (text : Text) : Option Settings :=
  let text := if text.head? = some '\ufeff' then text.tail else text
  match members? (text.length + 1) text with
  | some members => Settings.ofMembers? values members
  | none => none

end PatternLint.Toml
