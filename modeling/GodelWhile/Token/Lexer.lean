import GodelWhile.Syntax.Error

/-! # From text to tokens

A text is cut from the front into lexemes, each the longest that fits: numbers, words, directives,
symbols, single blanks, and comments that run to the end of their line. Every lexeme but blanks and
comments is a token; the token's place is the place of the lexeme's first character. -/

namespace GodelWhile

/-- A piece of source text, and the token it stands for unless it is mere layout. -/
structure Lexeme where
  text : List Char
  token? : Option Token
  deriving DecidableEq, Repr

namespace Lexeme

/-- Characters that may begin a name or stand in a directive: ASCII letters and the underscore. -/
def isLetter (c : Char) : Bool := c.isAlpha || c = '_'

/-- Characters that may go on a name: letters and ASCII digits. -/
def isWordChar (c : Char) : Bool := isLetter c || c.isDigit

/-- Characters between tokens: space, tab, form feed, carriage return and newline. -/
def isBlank (c : Char) : Bool :=
  c = ' ' || c = '\t' || c = '\x0c' || c = '\r' || c = '\n'

/-- The symbols of one character. Negation has two spellings. -/
def symbol? : Char → Option Token
  | ';' => some .semicolon
  | '(' => some .openParen
  | ')' => some .closeParen
  | '!' => some .bang
  | '¬' => some .bang
  | '*' => some (.operator (.arith .mul))
  | '/' => some (.operator (.arith .div))
  | '+' => some (.operator (.arith .add))
  | '-' => some (.operator (.arith .sub))
  | '<' => some (.operator (.compare .lt))
  | '>' => some (.operator (.compare .gt))
  | '=' => some (.operator .eq)
  | '&' => some (.operator .and)
  | '|' => some (.operator .or)
  | _ => none

/-- The symbols of two characters: those that end in an equals sign. -/
def symbolBeforeEquals? : Char → Option Token
  | ':' => some .assign
  | '<' => some (.operator (.compare .le))
  | '>' => some (.operator (.compare .ge))
  | _ => none

/-- The symbol at the front of `c :: cs`; one of two characters wins over one of a single one. -/
def symbolAt? (c : Char) (cs : List Char) : Option Lexeme :=
  match (if cs.head? = some '=' then symbolBeforeEquals? c else none) with
  | some t => some ⟨[c, '='], some t⟩
  | none => (symbol? c).map (⟨[c], some ·⟩)

/-- The longest lexeme at the front of `c :: cs`. -/
def first? (c : Char) (cs : List Char) : Option Lexeme :=
  if c.isDigit then
    let digits := c :: cs.takeWhile Char.isDigit
    some ⟨digits, some (.number (Nat.ofDigitChars 10 digits 0))⟩
  else if isLetter c then
    let word := c :: cs.takeWhile isWordChar
    some ⟨word, some (.ofWord (String.ofList word))⟩
  else if c = '@' then
    match cs.takeWhile isLetter with
    | [] => none
    | d :: ds => some ⟨'@' :: d :: ds, some (.directive (String.ofList (d :: ds)))⟩
  else if c = '#' then
    some ⟨'#' :: cs.takeWhile (· ≠ '\n'), none⟩
  else if isBlank c then
    some ⟨[c], none⟩
  else
    symbolAt? c cs

/-- Puts the lexeme's token, found at `p`, in front of the tokens that follow. -/
def emit (l : Lexeme) (p : Position) (following : List Located) : List Located :=
  match l.token? with
  | none => following
  | some t => ⟨t, p⟩ :: following

end Lexeme

/-- The tokens of a text whose first character stands at `p`, ending in the end marker. The first
`inside` characters belong to a lexeme already read and are passed over. -/
def tokenizeFrom (inside : Nat) (p : Position) : List Char → Except SyntaxError (List Located)
  | [] => .ok [⟨.endOfInput, p⟩]
  | c :: cs =>
    match inside with
    | k + 1 => tokenizeFrom k (p.advance c) cs
    | 0 =>
      match Lexeme.first? c cs with
      | none => .error ⟨p, .unexpectedCharacter c⟩
      | some l => (tokenizeFrom (l.text.length - 1) (p.advance c) cs).map (l.emit p)

/-- The tokens of a source text, ending in the end marker. -/
def tokenize (source : String) : Except SyntaxError (List Located) :=
  tokenizeFrom 0 .start source.toList

end GodelWhile
