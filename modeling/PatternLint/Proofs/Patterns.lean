import Mathlib.Data.List.Forall2
import PatternLint.Glob.Pattern
import PatternLint.Proofs.Components

/-!
# What patterns are read as

The tokens of a text that is in order stand for its parts, one after the other (`Reads`). So a text without
wildcards is read as it is written (`Reads.eq_map_char`), and a text without sets matches itself
(`Reads.accepts_self`). The components of a pattern are those of the pieces of its path (`pieces_of_ofText`), below a
base first those of the base (`pieces_of_join`), and it is in order if they are (`exists_ofText_join`).
-/
namespace PatternLint.Glob

/-- What the parts of a text are read as. -/
inductive Reads : Text → List Token → Prop
  | nil : Reads [] []
  | any {text : Text} {tokens : List Token} : Reads text tokens → Reads ('?' :: text) (.any :: tokens)
  | directories : Reads ['*', '*'] [.directories]
  | directoriesAbove {text : Text} {tokens : List Token} :
      Reads text tokens → Reads ('*' :: '*' :: '/' :: text) (.directories :: tokens)
  | sequence {text : Text} {tokens : List Token} : Reads text tokens → Reads ('*' :: text) (.sequence :: tokens)
  | set {text after : Text} {negated : Bool} {members : List Member} {tokens : List Token} :
      set? text = some (.set negated members, after) → Reads after tokens →
      Reads ('[' :: text) (.set negated members :: tokens)
  | char {c : Char} {text : Text} {tokens : List Token} :
      c ≠ '?' → c ≠ '*' → c ≠ '[' → Reads text tokens → Reads (c :: text) (.char c :: tokens)

theorem prepend_eq_ok_iff {token : Token} {read : Except SyntaxError (List Token)} {found : List Token} :
    tokensFrom.prepend token read = .ok found ↔ ∃ tokens, read = .ok tokens ∧ found = token :: tokens := by
  cases read <;> simp [tokensFrom.prepend, eq_comm]

theorem set?_isSet {text after : Text} {token : Token} (read : set? text = some (token, after)) :
    ∃ negated members, token = .set negated members := by
  unfold set? at read
  split at read
  split at read
  · cases read
  · split at read
    · cases read
    · cases read
      exact ⟨_, _, rfl⟩

/-- A text in order is read part by part. -/
theorem reads_of_tokensFrom {position : Nat} {last : Option Char} {text : Text} {found : List Token}
    (read : tokensFrom position last text = .ok found) : Reads text found := by
  revert found
  fun_induction tokensFrom position last text
  case case1 =>
    intro found read
    cases read
    exact .nil
  case case2 ih =>
    intro found read
    obtain ⟨tokens, onward, rfl⟩ := prepend_eq_ok_iff.mp read
    exact .any (ih onward)
  case case4 =>
    intro found read
    cases read
    exact .directories
  case case5 ih =>
    intro found read
    obtain ⟨tokens, onward, rfl⟩ := prepend_eq_ok_iff.mp read
    exact .directoriesAbove (ih onward)
  case case8 ih =>
    intro found read
    obtain ⟨tokens, onward, rfl⟩ := prepend_eq_ok_iff.mp read
    exact .sequence (ih onward)
  case case10 text token after closed ih =>
    intro found read
    obtain ⟨tokens, onward, rfl⟩ := prepend_eq_ok_iff.mp read
    obtain ⟨negated, members, rfl⟩ := set?_isSet closed
    exact .set closed (ih onward)
  case case11 c text any _ _ star set ih =>
    intro found read
    obtain ⟨tokens, onward, rfl⟩ := prepend_eq_ok_iff.mp read
    exact .char any star set (ih onward)
  all_goals
    intro found read
    cases read

/-! ### Plain texts and texts without sets -/

theorem isPattern_iff (text : Text) : isPattern text = true ↔ ∃ c ∈ text, c = '*' ∨ c = '?' ∨ c = '[' := by
  simp [isPattern, or_assoc]

/-- A text without wildcards is read as it is written. -/
theorem Reads.eq_map_char {text : Text} {tokens : List Token} (reads : Reads text tokens)
    (plain : isPattern text = false) : tokens = text.map .char := by
  induction reads with
  | nil => rfl
  | @char c text tokens _ _ _ _ ih =>
    have rest : isPattern text = false := by
      rw [isPattern, List.any_cons, Bool.or_eq_false_iff] at plain
      exact plain.2
    rw [ih rest, List.map_cons]
  | _ => simp [isPattern] at plain

/-- Tokens that stand for one character each stand for those of the text. -/
theorem Reads.eq_of_mapM {text other : Text} {tokens : List Token} (reads : Reads text tokens)
    (single : tokens.mapM Token.char? = some other) : other = text := by
  induction reads generalizing other with
  | nil => simpa using single.symm
  | char _ _ _ _ ih =>
    simp only [List.mapM_cons, Token.char?, Option.pure_def, Option.bind_eq_bind, Option.bind_some,
      Option.bind_eq_some_iff, Option.some.injEq] at single
    obtain ⟨rest, onward, rfl⟩ := single
    rw [ih onward]
  | _ => simp [List.mapM_cons, Token.char?] at single

theorem anyTail_iff {holds : Text → Bool} {text : Text} :
    anyTail holds text = true ↔ ∃ rest, rest <:+ text ∧ holds rest = true := by
  induction text with
  | nil => simp [anyTail]
  | cons c text ih =>
    rw [anyTail, Bool.or_eq_true, ih]
    constructor
    · rintro (whole | ⟨rest, ends, held⟩)
      · exact ⟨c :: text, List.suffix_rfl, whole⟩
      · exact ⟨rest, ends.trans (List.suffix_cons c text), held⟩
    · rintro ⟨rest, ends, held⟩
      rcases List.suffix_cons_iff.mp ends with rfl | later
      · exact .inl held
      · exact .inr ⟨rest, later, held⟩

/-- A text without sets matches itself. -/
theorem Reads.accepts_self {text : Text} {tokens : List Token} (reads : Reads text tokens) (unset : '[' ∉ text) :
    accepts tokens text = true := by
  induction reads with
  | nil => rfl
  | any _ ih => simpa [accepts, Token.accepts] using ih (fun member => unset (List.mem_cons_of_mem _ member))
  | directories => decide
  | directoriesAbove _ ih =>
    rw [accepts]
    exact anyTail_iff.mpr ⟨_, List.suffix_append ['*', '*', '/'] _, ih fun member => unset (by simp [member])⟩
  | sequence _ ih =>
    rw [accepts]
    exact anyTail_iff.mpr ⟨_, List.suffix_cons '*' _, ih fun member => unset (List.mem_cons_of_mem _ member)⟩
  | set => simp at unset
  | char _ _ _ _ ih => simpa [accepts, Token.accepts] using ih (fun member => unset (List.mem_cons_of_mem _ member))

theorem tokensFrom_char {c : Char} (any : c ≠ '?') (star : c ≠ '*') (set : c ≠ '[') (position : Nat)
    (last : Option Char) (text : Text) : tokensFrom position last (c :: text) =
      tokensFrom.prepend (.char c) (tokensFrom (position + 1) (some c) text) := by
  rw [tokensFrom]
  · exact any
  · exact fun _ same => absurd same star
  · exact fun _ same => absurd same star
  · exact star
  · exact set

theorem tokensFrom_of_plain {text : Text} (plain : isPattern text = false) (position : Nat) (last : Option Char) :
    tokensFrom position last text = .ok (text.map .char) := by
  induction text generalizing position last with
  | nil => rw [tokensFrom, List.map_nil]
  | cons c text ih =>
    rw [isPattern, List.any_cons, Bool.or_eq_false_iff] at plain
    obtain ⟨⟨star, any⟩, set⟩ : (c ≠ '*' ∧ c ≠ '?') ∧ c ≠ '[' := by simpa [and_assoc] using plain.1
    rw [tokensFrom_char any star set, ih plain.2]
    rfl

/-! ### A star in front of a word -/

/-- The tokens of a star in front of a word. -/
def endingIn (word : Text) : List Token := .sequence :: word.map .char

theorem accepts_map_char_iff (word text : Text) : accepts (word.map .char) text = true ↔ text = word := by
  induction word generalizing text with
  | nil => simp [accepts]
  | cons c word ih =>
    cases text with
    | nil => simp [accepts]
    | cons d text =>
      rw [List.map_cons, accepts, Bool.and_eq_true, ih, Token.accepts, decide_eq_true_eq, List.cons.injEq, eq_comm]
      · exact nofun
      · exact nofun

/-- A star in front of a word matches what ends in the word. -/
theorem accepts_endingIn_iff (word text : Text) : accepts (endingIn word) text = true ↔ word <:+ text := by
  rw [endingIn, accepts, anyTail_iff]
  constructor
  · rintro ⟨rest, ends, same⟩
    exact (accepts_map_char_iff word rest).mp same ▸ ends
  · intro ends
    exact ⟨word, ends, (accepts_map_char_iff word word).mpr rfl⟩

/-! ### Components of patterns -/

/-- What a piece of the path of a pattern is read as. -/
def Piece.Of (text : Text) (piece : Piece) : Prop := ∃ tokens, Reads text tokens ∧ Piece.ofTokens tokens = piece

theorem Piece.Of.eq_literal {text : Text} {piece : Piece} (read : Piece.Of text piece)
    (plain : isPattern text = false) : piece = .literal text := by
  obtain ⟨tokens, reads, rfl⟩ := read
  have single (text : Text) : (text.map Token.char).mapM Token.char? = some text := by
    induction text with
    | nil => rfl
    | cons c text ih => simp [List.mapM_cons, Token.char?, ih]
  rw [reads.eq_map_char plain, Piece.ofTokens, if_neg, single text]
  cases text <;> simp

/-- What tokens make up: two stars any directories, single characters a name, and all others a wildcard. -/
theorem Piece.ofTokens_cases (tokens : List Token) :
    tokens = [.directories] ∧ ofTokens tokens = .directories ∨
    (∃ text, tokens.mapM Token.char? = some text ∧ ofTokens tokens = .literal text) ∨
    ofTokens tokens = .wildcard tokens := by
  rw [ofTokens]
  split
  · next stars => exact .inl ⟨stars, rfl⟩
  · cases tokens.mapM Token.char? with
    | some text => exact .inr (.inl ⟨text, rfl, rfl⟩)
    | none => exact .inr (.inr rfl)

theorem Piece.Of.text_eq {text other : Text} (read : Piece.Of text (.literal other)) : other = text := by
  obtain ⟨tokens, reads, same⟩ := read
  rcases Piece.ofTokens_cases tokens with ⟨_, own⟩ | ⟨found, single, own⟩ | own
  · cases own.symm.trans same
  · cases own.symm.trans same
    exact reads.eq_of_mapM single
  · cases own.symm.trans same

theorem Piece.Of.reads {text : Text} {tokens : List Token} (read : Piece.Of text (.wildcard tokens)) :
    Reads text tokens := by
  obtain ⟨found, reads, same⟩ := read
  rcases Piece.ofTokens_cases found with ⟨_, own⟩ | ⟨_, _, own⟩ | own
  · cases own.symm.trans same
  · cases own.symm.trans same
  · cases own.symm.trans same
    exact reads

theorem Piece.Of.eq_stars {text : Text} (read : Piece.Of text .directories) (free : '/' ∉ text) : text = ['*', '*'] := by
  obtain ⟨tokens, reads, same⟩ := read
  rcases Piece.ofTokens_cases tokens with ⟨stars, _⟩ | ⟨_, _, own⟩ | own
  · rw [stars] at reads
    cases reads with
    | directories => rfl
    | directoriesAbove => simp at free
  · cases own.symm.trans same
  · cases own.symm.trans same

theorem piecesOf_cons_eq_ok_iff {text : Text} {texts : List Text} {pieces : List Piece} :
    piecesOf (text :: texts) = .ok pieces ↔
      ∃ found rest, tokens text = .ok found ∧ piecesOf texts = .ok rest ∧ pieces = Piece.ofTokens found :: rest := by
  rw [piecesOf]
  cases tokens text with
  | error fault => simp
  | ok found => cases piecesOf texts <;> simp [eq_comm]

theorem piecesOf_append_eq_ok_iff {first second : List Text} {pieces : List Piece} :
    piecesOf (first ++ second) = .ok pieces ↔
      ∃ lead rest, piecesOf first = .ok lead ∧ piecesOf second = .ok rest ∧ pieces = lead ++ rest := by
  induction first generalizing pieces with
  | nil => simp [piecesOf]
  | cons text first ih =>
    rw [List.cons_append, piecesOf_cons_eq_ok_iff]
    simp only [piecesOf_cons_eq_ok_iff, ih]
    constructor
    · rintro ⟨found, _, own, ⟨lead, rest, inFirst, inSecond, rfl⟩, rfl⟩
      exact ⟨_, rest, ⟨found, lead, own, inFirst, rfl⟩, inSecond, rfl⟩
    · rintro ⟨_, rest, ⟨found, lead, own, inFirst, rfl⟩, inSecond, rfl⟩
      exact ⟨found, _, own, ⟨lead, rest, inFirst, inSecond, rfl⟩, rfl⟩

/-- Each component is read from a piece of its own. -/
theorem forall₂_of_piecesOf {texts : List Text} {pieces : List Piece} (read : piecesOf texts = .ok pieces) :
    List.Forall₂ Piece.Of texts pieces := by
  induction texts generalizing pieces with
  | nil =>
    cases read
    exact .nil
  | cons text texts ih =>
    obtain ⟨found, rest, own, onward, rfl⟩ := piecesOf_cons_eq_ok_iff.mp read
    exact .cons ⟨found, reads_of_tokensFrom own, rfl⟩ (ih onward)

theorem exists_of_mem_piecesOf {texts : List Text} {pieces : List Piece} (read : piecesOf texts = .ok pieces)
    {piece : Piece} (member : piece ∈ pieces) : ∃ text ∈ texts, Piece.Of text piece := by
  induction texts generalizing pieces with
  | nil =>
    cases read
    cases member
  | cons text texts ih =>
    obtain ⟨found, rest, own, onward, rfl⟩ := piecesOf_cons_eq_ok_iff.mp read
    rcases List.mem_cons.mp member with rfl | later
    · exact ⟨text, List.mem_cons_self, found, reads_of_tokensFrom own, rfl⟩
    · obtain ⟨other, inside, origin⟩ := ih onward later
      exact ⟨other, List.mem_cons_of_mem text inside, origin⟩

/-- A pattern is read piece by piece, and starts at the top if it is spelled so. -/
theorem pieces_of_ofText {text : Text} {glob : Pattern} (read : Pattern.ofText text = .ok glob) :
    glob.isAbsolute = Path.isAbsolute ⟨text⟩ ∧ glob.onlyDirectories = decide (text.getLast? = some '/') ∧
    piecesOf (Path.openSegments ⟨if Path.isAbsolute ⟨text⟩ then text.tail else text⟩) = .ok glob.pieces := by
  rw [Pattern.ofText] at read
  split at read
  · cases read
  · dsimp only at read
    split at read
    · cases read
    · next pieces found =>
      cases read
      rw [Text.list_splitOn_eq] at found
      refine ⟨rfl, rfl, ?_⟩
      simpa [Path.openSegments, Path.segments, Path.isAbsolute] using found

/-- What a component of a pattern is read from. -/
theorem exists_of_mem_pieces {path : Path} {glob : Pattern} (read : Pattern.ofText path.text = .ok glob) {piece : Piece}
    (member : piece ∈ glob.pieces) : ∃ segment ∈ path.segments, Piece.Of segment piece := by
  obtain ⟨_, _, pieces⟩ := pieces_of_ofText read
  obtain ⟨segment, inside, own⟩ := exists_of_mem_piecesOf pieces member
  refine ⟨segment, ?_, own⟩
  have inPath := Path.mem_segments_of_mem_openSegments inside
  split at inPath
  · next absolute =>
    obtain ⟨text⟩ := path
    obtain ⟨rest, ⟨⟩⟩ := Path.exists_of_isAbsolute absolute
    rw [Path.segments_top]
    exact List.mem_cons_of_mem [] inPath
  · exact inPath

/-- No component that is followed as it is written holds a slash. -/
theorem free_of_ofText {path : Path} {glob : Pattern} (read : Pattern.ofText path.text = .ok glob) (text : Text)
    (member : .literal text ∈ glob.pieces) : '/' ∉ text := by
  obtain ⟨segment, inPath, own⟩ := exists_of_mem_pieces read member
  rw [own.text_eq]
  exact Path.not_mem_of_mem_segments inPath

/-- No piece of a path is a wildcard that starts with a dot and so may stand for the directory itself or the one
    above. -/
def Undotted (path : Path) : Prop := ∀ segment ∈ path.segments, segment.head? = some '.' → isPattern segment = false

instance (path : Path) : Decidable (Undotted path) :=
  inferInstanceAs (Decidable (∀ segment ∈ path.segments, segment.head? = some '.' → isPattern segment = false))

theorem Reads.head?_eq_dot {text : Text} {tokens : List Token} (reads : Reads text tokens)
    (dotted : tokens.head? = some (.char '.')) : text.head? = some '.' := by
  cases reads with
  | char => simpa using dotted
  | _ => simp at dotted

/-- Whether a component of a pattern is neither a dot nor a wildcard that starts with one. -/
def Piece.Undotted (piece : Piece) : Prop :=
  piece ≠ .literal ['.'] ∧ ∀ tokens, piece = .wildcard tokens → tokens.head? ≠ some (.char '.')

theorem Piece.Of.head?_ne_dot {text : Text} {tokens : List Token} (read : Piece.Of text (.wildcard tokens))
    (undotted : text.head? = some '.' → isPattern text = false) : tokens.head? ≠ some (.char '.') := by
  intro dotted
  cases read.eq_literal (undotted (read.reads.head?_eq_dot dotted))

theorem Piece.Of.undotted {text : Text} {piece : Piece} (read : Piece.Of text piece) (other : text ≠ ['.'])
    (undotted : text.head? = some '.' → isPattern text = false) : piece.Undotted := by
  refine ⟨?_, ?_⟩
  · rintro rfl
    exact other read.text_eq.symm
  · rintro tokens rfl
    exact read.head?_ne_dot undotted

theorem head?_ne_dot_of_undotted {path : Path} {glob : Pattern} (read : Pattern.ofText path.text = .ok glob)
    (undotted : Undotted path) {tokens : List Token} (member : .wildcard tokens ∈ glob.pieces) :
    tokens.head? ≠ some (.char '.') := by
  obtain ⟨segment, inPath, own⟩ := exists_of_mem_pieces read member
  exact own.head?_ne_dot (undotted segment inPath)

/-! ### Patterns below a base -/

/-- The components of a pattern below a relative base are those of the base, read as a pattern, and then its own. -/
theorem pieces_of_join {base path : Path} {glob : Pattern} (relative : path.isAbsolute = false)
    (filled : base.text ≠ []) (side : base.isAbsolute = false)
    (read : Pattern.ofText (base.join path).text = .ok glob) : ∃ lead rest, piecesOf base.openSegments = .ok lead ∧
      piecesOf path.openSegments = .ok rest ∧ glob.pieces = lead ++ rest := by
  obtain ⟨_, _, pieces⟩ := pieces_of_ofText read
  have parts : (base.join path).openSegments = base.openSegments ++ path.openSegments := by
    rw [Path.openSegments, Path.segments_join relative filled,
      List.getLast?_append_of_ne_nil _ path.segments_ne_nil, Path.openSegments.eq_def path]
    split
    · exact List.dropLast_append_of_ne_nil path.segments_ne_nil
    · rfl
  rw [if_neg (by rw [Path.isAbsolute_join relative filled, side]; decide), parts] at pieces
  exact piecesOf_append_eq_ok_iff.mp pieces

/-- A pattern below a base matches files unless its own path ends like that of a directory. -/
theorem onlyDirectories_join_iff {base path : Path} {glob : Pattern} (relative : path.isAbsolute = false)
    (filled : base.text ≠ []) (read : Pattern.ofText (base.join path).text = .ok glob) :
    glob.onlyDirectories = false ↔ path.segments.getLast? ≠ some [] := by
  have closed := Text.getLast?_splitOn_eq_nil_iff '/' (base.join path).text
  rw [or_iff_right (Path.text_join_ne_nil filled path), ← Path.segments, Path.segments_join relative filled,
    List.getLast?_append_of_ne_nil _ path.segments_ne_nil] at closed
  rw [(pieces_of_ofText read).2.1, decide_eq_false_iff_not, ← closed]

theorem isPattern_of_mem_segments {path : Path} (plain : isPattern path.text = false) {segment : Text}
    (member : segment ∈ path.segments) : isPattern segment = false := by
  rw [Bool.eq_false_iff, Ne, isPattern_iff] at plain ⊢
  rintro ⟨c, inSegment, wild⟩
  have slash : c ≠ '/' := by rcases wild with rfl | rfl | rfl <;> decide
  exact plain ⟨c, (Text.exists_mem_splitOn_iff slash path.text).mp ⟨segment, member, inSegment⟩, wild⟩

theorem undotted_of_plain {path : Path} (plain : isPattern path.text = false) : Undotted path :=
  fun _ member _ => isPattern_of_mem_segments plain member

theorem undotted_join {base path : Path} (undottedBase : Undotted base) (undotted : Undotted path) :
    Undotted (base.join path) := by
  cases absolute : path.isAbsolute with
  | true => rwa [Path.join_of_isAbsolute base absolute]
  | false =>
    by_cases empty : base.text = []
    · rwa [Path.join_of_empty empty]
    · intro segment member dotted
      rw [Path.segments_join absolute empty, List.mem_append] at member
      rcases member with inBase | inPath
      · exact undottedBase segment (Path.mem_segments_of_mem_openSegments inBase) dotted
      · exact undotted segment inPath dotted

/-- The components of a path without wildcards are its pieces as they are written. -/
theorem piecesOf_of_plain {path : Path} (plain : isPattern path.text = false) {pieces : List Piece}
    (read : piecesOf path.openSegments = .ok pieces) : pieces = path.openSegments.map .literal := by
  have all := forall₂_of_piecesOf read
  have literal : List.Forall₂ (fun text piece => Piece.literal text = piece) path.openSegments pieces :=
    List.forall₂_iff_zip.mpr ⟨all.length_eq, fun inside =>
      ((List.forall₂_iff_zip.mp all).2 inside).eq_literal (isPattern_of_mem_segments plain
        (Path.mem_segments_of_mem_openSegments (List.of_mem_zip inside).1)) |>.symm⟩
  rw [← List.forall₂_map_left_iff, List.forall₂_eq_eq_eq] at literal
  exact literal.symm

theorem piecesOf_map_literal {texts : List Text} (plain : ∀ text ∈ texts, isPattern text = false) :
    piecesOf texts = .ok (texts.map .literal) := by
  induction texts with
  | nil => rfl
  | cons text texts ih =>
    obtain ⟨own, rest⟩ := List.forall_mem_cons.mp plain
    have read : tokens text = .ok (text.map .char) := tokensFrom_of_plain own 0 none
    have literal := Piece.Of.eq_literal ⟨_, reads_of_tokensFrom read, rfl⟩ own
    exact piecesOf_cons_eq_ok_iff.mpr ⟨_, _, read, ih rest, by rw [literal, List.map_cons]⟩

/-! ### Components that are in order -/

/-- A set behind its first member. -/
def setFrom? (negated : Bool) (first : Char) (text : Text) : Option (Token × Text) :=
  match text.dropWhile (· ≠ ']') with
  | [] => none
  | _ :: after => some (.set negated (membersOf (first :: text.takeWhile (· ≠ ']'))), after)

theorem set?_cons {c : Char} (plain : c ≠ '!') (text : Text) : set? (c :: text) = setFrom? false c text := by
  unfold set?
  split
  next negated rest start =>
    split at start
    · next same => exact absurd (List.cons.inj same).1 plain
    · cases start
      rfl

theorem setFrom?_append {negated : Bool} {first : Char} {text after : Text} {token : Token}
    (closed : setFrom? negated first text = some (token, after)) (rest : Text) :
    setFrom? negated first (text ++ rest) = some (token, after ++ rest) := by
  have whole := List.takeWhile_append_dropWhile (p := (· ≠ ']')) (l := text)
  rw [setFrom?] at closed ⊢
  cases dropped : text.dropWhile (· ≠ ']') with
  | nil =>
    rw [dropped] at closed
    cases closed
  | cons bracket behind =>
    rw [dropped] at closed whole
    cases closed
    have shorter : (text.takeWhile (· ≠ ']')).length ≠ text.length := by
      intro same
      have lengths := congrArg List.length whole
      rw [List.length_append, List.length_cons] at lengths
      omega
    rw [List.dropWhile_append, List.takeWhile_append, dropped, if_neg shorter]
    rfl

theorem set?_append {text after : Text} {token : Token} (closed : set? text = some (token, after)) (rest : Text) :
    set? (text ++ rest) = some (token, after ++ rest) := by
  cases text with
  | nil => cases closed
  | cons c text =>
    by_cases bang : c = '!'
    · subst bang
      cases text with
      | nil => cases closed
      | cons first text => exact @setFrom?_append true first text after token closed rest
    · rw [set?_cons bang] at closed
      rw [List.cons_append, set?_cons bang]
      exact setFrom?_append closed rest

theorem isOk_prepend (token : Token) (read : Except SyntaxError (List Token)) :
    (tokensFrom.prepend token read).isOk = read.isOk := by
  cases read <;> rfl

/-- A text that is in order stays so if another one in order follows behind a slash. -/
theorem isOk_tokensFrom_append {position : Nat} {last : Option Char} {text rest : Text}
    (ok : (tokensFrom position last text).isOk = true)
    (goesOn : rest = [] ∨ ∃ more, rest = '/' :: more ∧ ∀ position, (tokensFrom position (some '/') more).isOk = true)
    (start : Nat) {before : Option Char} (same : before.all (· = '/') = last.all (· = '/')) :
    (tokensFrom start before (text ++ rest)).isOk = true := by
  fun_induction tokensFrom position last text generalizing start before
  case case1 =>
    rcases goesOn with rfl | ⟨more, rfl, onward⟩
    · simp [tokensFrom, Except.isOk, Except.toBool]
    · rw [List.nil_append, tokensFrom_char (by decide) (by decide) (by decide), isOk_prepend]
      exact onward _
  case case2 ih =>
    rw [isOk_prepend] at ok
    rw [List.cons_append, tokensFrom, isOk_prepend]
    exact ih ok _ rfl
  case case4 stars _ =>
    rcases goesOn with rfl | ⟨more, rfl, onward⟩
    · simp [tokensFrom, same, stars, Except.isOk, Except.toBool]
    · rw [List.cons_append, List.cons_append, List.nil_append, tokensFrom, if_pos (same.trans stars), isOk_prepend]
      exact onward _
  case case5 stars text _ ih =>
    rw [isOk_prepend] at ok
    rw [List.cons_append, List.cons_append, List.cons_append, tokensFrom, if_pos (same.trans stars), isOk_prepend]
    exact ih ok _ rfl
  case case8 text more single ih =>
    rw [isOk_prepend] at ok
    -- the star stays a single one, as a slash follows at most
    have apart (tail : Text) : text ++ rest ≠ '*' :: tail := by
      cases text with
      | nil => rcases goesOn with rfl | ⟨_, rfl, _⟩ <;> simp
      | cons c text =>
        intro same
        exact single text (by rw [(List.cons.inj same).1])
    rw [List.cons_append, tokensFrom, isOk_prepend]
    · exact ih ok _ rfl
    · exact fun tail => apart _
    · exact fun tail => apart _
  case case10 text token after closed ih =>
    rw [isOk_prepend] at ok
    rw [List.cons_append, tokensFrom]
    split
    · next none =>
      rw [set?_append closed] at none
      cases none
    · next other behind own =>
      rw [set?_append closed] at own
      cases own
      rw [isOk_prepend]
      exact ih ok _ rfl
  case case11 c text any _ _ star set ih =>
    rw [isOk_prepend] at ok
    rw [List.cons_append, tokensFrom_char any star set, isOk_prepend]
    exact ih ok _ rfl
  all_goals cases ok

theorem isOk_tokens_intercalate {texts : List Text} {pieces : List Piece} (read : piecesOf texts = .ok pieces)
    (some_text : texts ≠ []) (position : Nat) {last : Option Char} (start : last.all (· = '/') = true) :
    (tokensFrom position last (List.intercalate ['/'] texts)).isOk = true := by
  induction texts generalizing pieces position last with
  | nil => exact absurd rfl some_text
  | cons text texts ih =>
    obtain ⟨found, rest, own, onward, rfl⟩ := piecesOf_cons_eq_ok_iff.mp read
    have ok : (tokensFrom 0 none text).isOk = true := by
      rw [tokens] at own
      rw [own]
      rfl
    cases texts with
    | nil =>
      have alone := isOk_tokensFrom_append ok (.inl rfl) position start
      rw [List.append_nil] at alone
      simpa [List.intercalate] using alone
    | cons next texts =>
      rw [List.intercalate_cons_cons, List.append_assoc, List.singleton_append]
      exact isOk_tokensFrom_append ok (.inr ⟨_, rfl, fun position => ih onward (by simp) position rfl⟩) position start

/-- A relative pattern is in order if its components are. -/
theorem exists_ofText {path : Path} (relative : path.isAbsolute = false) (isOpen : path.segments.getLast? ≠ some [])
    {pieces : List Piece} (read : piecesOf path.segments = .ok pieces) :
    ∃ glob, Pattern.ofText path.text = .ok glob := by
  have ok := @isOk_tokens_intercalate _ _ read path.segments_ne_nil 0 none rfl
  rw [path.intercalate_segments, ← tokens] at ok
  rw [Pattern.ofText]
  cases whole : tokens path.text with
  | error fault =>
    rw [whole] at ok
    cases ok
  | ok found =>
    have side : (path.text.head? = some '/') = False := by simpa [Path.isAbsolute] using relative
    simp only [side, decide_false, if_false, Text.list_splitOn_eq]
    rw [← Path.segments, if_neg isOpen, read]
    exact ⟨_, rfl⟩

/-- A pattern below a relative base is in order if the components of both are. -/
theorem exists_ofText_join {base path : Path} (relative : path.isAbsolute = false) (filled : base.text ≠ [])
    (side : base.isAbsolute = false) (isOpen : path.segments.getLast? ≠ some []) {lead rest : List Piece}
    (inBase : piecesOf base.openSegments = .ok lead) (inPath : piecesOf path.segments = .ok rest) :
    ∃ glob, Pattern.ofText (base.join path).text = .ok glob := by
  have parts := Path.segments_join relative filled
  have whole : piecesOf (base.join path).segments = .ok (lead ++ rest) := by
    rw [parts]
    exact piecesOf_append_eq_ok_iff.mpr ⟨lead, rest, inBase, inPath, rfl⟩
  refine exists_ofText (by rw [Path.isAbsolute_join relative filled, side]) ?_ whole
  rwa [parts, List.getLast?_append_of_ne_nil _ path.segments_ne_nil]

/-- An absolute pattern is in order if its pieces are, and they are those behind the slash that it starts with. -/
theorem exists_ofText_of_absolute {path : Path} (absolute : path.isAbsolute = true)
    (isOpen : path.segments.getLast? ≠ some []) {pieces : List Piece} (read : piecesOf path.segments.tail = .ok pieces) :
    ∃ glob, Pattern.ofText path.text = .ok glob ∧ glob.isAbsolute = true ∧ glob.onlyDirectories = false ∧
      glob.pieces = pieces := by
  obtain ⟨rest, rfl⟩ := Path.exists_of_isAbsolute absolute
  have segments := Path.segments_top rest
  have alsoOpen : (Path.segments ⟨rest⟩).getLast? ≠ some [] := by
    obtain ⟨first, others, same⟩ := List.exists_cons_of_ne_nil (Path.segments_ne_nil ⟨rest⟩)
    rw [segments, same, List.getLast?_cons_cons] at isOpen
    rwa [same]
  rw [segments, List.tail_cons] at read
  have whole : piecesOf (Path.segments ⟨'/' :: rest⟩) = .ok (.literal [] :: pieces) := by
    rw [segments]
    exact piecesOf_cons_eq_ok_iff.mpr ⟨[], pieces, tokensFrom_of_plain rfl 0 none, read, rfl⟩
  have ok := @isOk_tokens_intercalate _ _ whole (Path.segments_ne_nil _) 0 none rfl
  rw [Path.intercalate_segments, ← tokens] at ok
  have parsed : ∃ glob, Pattern.ofText ('/' :: rest) = .ok glob := by
    rw [Pattern.ofText]
    cases found : tokens ('/' :: rest) with
    | error fault =>
      rw [found] at ok
      cases ok
    | ok found =>
      simp only [List.head?_cons, decide_true, if_true, List.tail_cons, Text.list_splitOn_eq]
      rw [← Path.segments, if_neg alsoOpen, read]
      exact ⟨_, rfl⟩
  obtain ⟨glob, parsed⟩ := parsed
  obtain ⟨side, closed, own⟩ := pieces_of_ofText parsed
  have ends := Text.getLast?_splitOn_eq_nil_iff '/' ('/' :: rest)
  rw [if_pos absolute, List.tail_cons, Path.openSegments, if_neg alsoOpen, read] at own
  refine ⟨glob, parsed, side.trans absolute, ?_, (Except.ok.inj own).symm⟩
  rw [closed, decide_eq_false_iff_not]
  exact fun slash => isOpen (ends.mpr (.inr slash))

end PatternLint.Glob
