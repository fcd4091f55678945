import PatternLint.Text.Basic

/-!
# Glob patterns

The syntax of glob patterns. `?` stands for one character, `*` for any number of them, a set in brackets for one
of its members, or for one of no member after `!`; `**` is a whole component and stands for any number of
directories. A pattern that breaks these rules is refused with the position of the first fault.
-/
namespace PatternLint.Glob

/-- What is wrong with a pattern. -/
inductive Fault where
  /-- Three or more stars in a row. -/
  | tooManyStars
  | partialComponent
  /-- A set without an end. -/
  | openSet
  deriving Repr, DecidableEq

def Fault.message : Fault → Text
  | tooManyStars => "wildcards are either regular \x60*\x60 or recursive \x60**\x60".toList
  | partialComponent => "recursive wildcards must form a single path component".toList
  | openSet => "invalid range pattern".toList

/-- Why a pattern is refused. -/
structure SyntaxError where
  /-- The character that the fault is reported at, from zero. -/
  position : Nat
  fault : Fault
  deriving Repr, DecidableEq

def SyntaxError.message (error : SyntaxError) : Text :=
  "Pattern syntax error near position ".toList ++ Text.ofNat error.position ++ ": ".toList ++ error.fault.message

/-- A member of a set: the characters from one to another. -/
structure Member where
  /-- The first character. -/
  first : Char
  last : Char
  deriving Repr, DecidableEq

/-- An element of a pattern. -/
inductive Token where
  | char (c : Char)
  /-- Any character. -/
  | any
  /-- Any characters. -/
  | sequence
  /-- A character that is a member of the set, or that is none. -/
  | set (negated : Bool) (members : List Member)
  | directories
  deriving Repr, DecidableEq

def Member.includes (member : Member) (c : Char) : Bool := member.first ≤ c && c ≤ member.last

/-- The members of a set: a character, a dash and a character are a range, all others stand for themselves. -/
def membersOf : Text → List Member
  | a :: b :: c :: text => if b = '-' then ⟨a, c⟩ :: membersOf text else ⟨a, a⟩ :: membersOf (b :: c :: text)
  | [a, b] => [⟨a, a⟩, ⟨b, b⟩]
  | [a] => [⟨a, a⟩]
  | [] => []

/-- A set behind its opening bracket: its token and the text behind the closing bracket, which is the first one
    after at least one member. -/
def set? (text : Text) : Option (Token × Text) :=
  let (negated, text) := match text with
    | '!' :: text => (true, text)
    | text => (false, text)
  match text with
  | [] => none
  | first :: text =>
    match text.dropWhile (· ≠ ']') with
    | [] => none
    | _ :: after => some (.set negated (membersOf (first :: text.takeWhile (· ≠ ']'))), after)

theorem set?_length {text after : Text} {token : Token} (read : set? text = some (token, after)) :
    after.length < text.length := by
  have cut : ∀ {first : Char} {rest : Text} {negated : Bool},
      (match rest.dropWhile (· ≠ ']') with
        | [] => none
        | _ :: after => some (Token.set negated (membersOf (first :: rest.takeWhile (· ≠ ']'))), after)) =
          some (token, after) → after.length < rest.length := by
    intro first rest negated read
    have tail := List.dropWhile_suffix (l := rest) (· ≠ ']')
    revert read
    cases dropped : rest.dropWhile (· ≠ ']') with
    | nil => simp
    | cons c rest' =>
      rw [dropped] at tail
      have := tail.length_le
      simp only [List.length_cons] at this
      intro read
      simp only [Option.some.injEq, Prod.mk.injEq] at read
      obtain ⟨_, rfl⟩ := read
      omega
  unfold set? at read
  split at read
  next text' first =>
    split at first
    · simp only [Prod.mk.injEq] at first
      obtain ⟨_, rfl⟩ := first
      split at read
      · simp at read
      · have := cut read
        simp only [List.length_cons]
        omega
    · simp only [Prod.mk.injEq] at first
      obtain ⟨_, rfl⟩ := first
      split at read
      · simp at read
      · have := cut read
        simp only [List.length_cons]
        omega

/-- The tokens of a pattern from a position on, where the character before it is known. -/
def tokensFrom (position : Nat) (last : Option Char) (text : Text) : Except SyntaxError (List Token) :=
  match text with
  | [] => .ok []
  | '?' :: text => prepend .any (tokensFrom (position + 1) (some '?') text)
  | '*' :: '*' :: '*' :: _ => .error ⟨position + 2, .tooManyStars⟩
  | '*' :: '*' :: text =>
    if last.all (· = '/') then
      match text with
      | [] => .ok [.directories]
      | '/' :: text => prepend .directories (tokensFrom (position + 3) (some '/') text)
      | _ => .error ⟨position + 2, .partialComponent⟩
    else .error ⟨position - 1, .partialComponent⟩
  | '*' :: text => prepend .sequence (tokensFrom (position + 1) (some '*') text)
  | '[' :: text =>
    match _read : set? text with
    | none => .error ⟨position, .openSet⟩
    | some (token, after) =>
      prepend token (tokensFrom (position + 1 + (text.length - after.length)) (some ']') after)
  | c :: text => prepend (.char c) (tokensFrom (position + 1) (some c) text)
termination_by text.length
decreasing_by
  all_goals simp_all only [List.length_cons]
  all_goals first
    | omega
    | have := set?_length ‹_›
      omega
where
  /-- A token in front of those that follow, if they are in order. -/
  prepend (token : Token) : Except SyntaxError (List Token) → Except SyntaxError (List Token)
    | .ok tokens => .ok (token :: tokens)
    | .error error => .error error

/-- The tokens of a pattern, or its first fault. -/
def tokens (text : Text) : Except SyntaxError (List Token) := tokensFrom 0 none text

def Token.accepts : Token → Char → Bool
  | char c, d => c = d
  | any, _ => true
  | set negated members, c => members.any (·.includes c) != negated
  | sequence, _ | directories, _ => false

/-- Whether a property holds of a text or of what is left of it after some characters. -/
def anyTail (holds : Text → Bool) : Text → Bool
  | [] => holds []
  | c :: text => holds (c :: text) || anyTail holds text

def accepts : List Token → Text → Bool
  | [], text => text.isEmpty
  | .sequence :: tokens, text | .directories :: tokens, text => anyTail (accepts tokens) text
  | token :: tokens, text =>
    match text with
    | [] => false
    | c :: text => token.accepts c && accepts tokens text

/-- A component of a pattern. -/
inductive Piece where
  /-- A name without wildcards, which is followed as it is written. -/
  | literal (text : Text)
  | wildcard (tokens : List Token)
  | directories
  deriving Repr, DecidableEq

/-- The character that a token stands for, if there is only one. -/
def Token.char? : Token → Option Char
  | char c => some c
  | _ => none

def Piece.ofTokens (tokens : List Token) : Piece :=
  if tokens = [.directories] then .directories
  else
    match tokens.mapM Token.char? with
    | some text => .literal text
    | none => .wildcard tokens

def Piece.matches : Piece → Text → Bool
  | literal text, name => text = name
  | wildcard tokens, name => accepts tokens name
  | directories, _ => true

/-- A pattern that has been read: where it starts and its components. -/
structure Pattern where
  isAbsolute : Bool
  pieces : List Piece
  /-- Whether it ends in a slash, and so matches directories only. -/
  onlyDirectories : Bool
  deriving Repr, DecidableEq

/-- The components of texts, or the first fault in one of them. -/
def piecesOf : List Text → Except SyntaxError (List Piece)
  | [] => .ok []
  | text :: texts =>
    match tokens text with
    | .error error => .error error
    | .ok found =>
      match piecesOf texts with
      | .error error => .error error
      | .ok pieces => .ok (Piece.ofTokens found :: pieces)

/-- Reads a pattern. It is checked as a whole, and then each component by itself, as a set must not reach over
    a slash. -/
def Pattern.ofText (text : Text) : Except SyntaxError Pattern :=
  match tokens text with
  | .error error => .error error
  | .ok _ =>
    let isAbsolute := text.head? = some '/'
    let onlyDirectories := text.getLast? = some '/'
    let segments := (if isAbsolute then text.tail else text).splitOn '/'
    match piecesOf (if segments.getLast? = some [] then segments.dropLast else segments) with
    | .error error => .error error
    | .ok pieces => .ok ⟨isAbsolute, pieces, onlyDirectories⟩

/-- Whether a text holds a character that makes it a pattern. -/
def isPattern (text : Text) : Bool := text.any fun c => c = '*' || c = '?' || c = '['

end PatternLint.Glob
