import GodelWhile.Operator
import GodelWhile.Position

/-! # Tokens

The words of the language. A token knows its kind and its text, which is what error messages show;
a located token also knows where it starts. -/

namespace GodelWhile

/-- The reserved words. -/
inductive Keyword where
  | skip | ifWord | thenWord | elseWord | whileWord | doWord
  deriving DecidableEq, Repr

namespace Keyword

/-- How the keyword is written. -/
def text : Keyword → String
  | .skip => "skip"
  | .ifWord => "if"
  | .thenWord => "then"
  | .elseWord => "else"
  | .whileWord => "while"
  | .doWord => "do"

/-- All keywords. -/
def all : List Keyword := [.skip, .ifWord, .thenWord, .elseWord, .whileWord, .doWord]

/-- The keyword written `s`. -/
def ofText? (s : String) : Option Keyword := all.find? (·.text = s)

end Keyword

/-- The words that name a directive, written after an at sign. -/
inductive DirectiveWord where
  | trace | exit | help | reset | print | eval | numeric | fromNumeric | runNumeric
  deriving DecidableEq, Repr

namespace DirectiveWord

/-- How the word is written, without the at sign. -/
def text : DirectiveWord → String
  | .trace => "trace"
  | .exit => "exit"
  | .help => "help"
  | .reset => "reset"
  | .print => "print"
  | .eval => "eval"
  | .numeric => "numeric"
  | .fromNumeric => "from_numeric"
  | .runNumeric => "run_numeric"

/-- All words that name a directive. -/
def all : List DirectiveWord :=
  [.trace, .exit, .help, .reset, .print, .eval, .numeric, .fromNumeric, .runNumeric]

/-- The directive word written `s`. -/
def ofText? (s : String) : Option DirectiveWord := all.find? (·.text = s)

end DirectiveWord

/-- A token. `layout` stands for a piece of text without meaning (blanks, comments); the lexer
leaves such pieces out, but a token stream put together by hand may hold them. -/
inductive Token where
  | number (n : Nat)
  | boolean (b : Bool)
  | keyword (k : Keyword)
  | name (s : String)
  | directive (s : String)
  | operator (o : Operator)
  | assign
  | semicolon
  | openParen
  | closeParen
  | bang
  | layout
  | endOfInput
  deriving DecidableEq, Repr

/-- The kinds of tokens that messages tell apart. -/
inductive Token.Kind where
  | number | symbol | name | keyword | boolean | directive | endOfInput
  deriving DecidableEq, Repr

/-- The kind's name in messages. -/
def Token.Kind.label : Token.Kind → String
  | .number => "NUMBER"
  | .symbol => "SYMBOL"
  | .name => "NAME"
  | .keyword => "KEYWORD"
  | .boolean => "BOOLEAN"
  | .directive => "DIRECTIVE"
  | .endOfInput => "EOF"

namespace Token

/-- The kind of a token. -/
def kind : Token → Kind
  | .number _ => .number
  | .boolean _ => .boolean
  | .keyword _ => .keyword
  | .name _ => .name
  | .directive _ => .directive
  | .endOfInput => .endOfInput
  | .operator _ | .assign | .semicolon | .openParen | .closeParen | .bang | .layout => .symbol

/-- How a boolean constant is written. -/
def booleanText (b : Bool) : String := if b then "true" else "false"

/-- The text of a token in its plain spelling; empty for layout and for the end of the input. -/
def text : Token → String
  | .number n => toString n
  | .boolean b => booleanText b
  | .keyword k => k.text
  | .name s => s
  | .directive s => "@" ++ s
  | .operator o => o.symbol
  | .assign => ":="
  | .semicolon => ";"
  | .openParen => "("
  | .closeParen => ")"
  | .bang => "!"
  | .layout => ""
  | .endOfInput => ""

/-- The token as messages show it: its kind and its quoted text. -/
def describe : Token → String
  | .endOfInput => "end of input"
  | t => t.kind.label ++ " '" ++ t.text ++ "'"

/-- The symbols, in their plain spelling. -/
def symbols : List Token :=
  [.assign, .semicolon, .openParen, .closeParen, .bang] ++ Operator.all.map .operator

/-- The symbol written `s`. -/
def symbol? (s : String) : Option Token := symbols.find? (·.text = s)

/-- The word written `s`: a boolean constant or a keyword where it spells one, else a name. -/
def ofWord (s : String) : Token :=
  if s = "true" then .boolean true
  else if s = "false" then .boolean false
  else match Keyword.ofText? s with
    | some k => .keyword k
    | none => .name s

end Token

/-- A token and the place of its first character. -/
structure Located where
  token : Token
  pos : Position
  deriving DecidableEq, Repr

end GodelWhile
