import GodelWhile.Token.Basic

/-! # Syntax errors

What can be wrong with a source text, where, and how it is reported. -/

namespace GodelWhile

/-- What the grammar wanted to see at the place of an error. -/
inductive Expectation where
  | semicolonOrEnd | closeParen | thenWord | doWord | expression | name
  deriving DecidableEq, Repr

/-- The expectation in words. -/
def Expectation.describe : Expectation → String
  | .semicolonOrEnd => "';' or end of input"
  | .closeParen => "')'"
  | .thenWord => "'then'"
  | .doWord => "'do'"
  | .expression => "an expression"
  | .name => "a name"

/-- The reason of a syntax error. -/
inductive SyntaxError.Cause where
  /-- No lexeme starts with this character. -/
  | unexpectedCharacter (c : Char)
  /-- The grammar cannot go on with this token. -/
  | unexpectedToken (expected : Expectation) (found : Token)
  /-- There is no directive of this name. -/
  | unknownDirective (name : String)
  /-- Numbers are read back as one of three categories of code, and this names none of them. -/
  | unknownCategory (name : String)
  deriving DecidableEq, Repr

/-- A syntax error: its reason and its place. -/
structure SyntaxError where
  pos : Position
  cause : SyntaxError.Cause
  deriving DecidableEq, Repr

namespace SyntaxError

/-- The reason in words. -/
def Cause.describe : Cause → String
  | .unexpectedCharacter c => s!"Unexpected character '{c}'."
  | .unexpectedToken expected found =>
      "Expected " ++ expected.describe ++ ", found " ++ found.describe ++ "."
  | .unknownDirective name => s!"Unknown directive '@{name}'."
  | .unknownCategory name => s!"Unknown numeric mode '{name}'. Expected one of a, b, stmt."

/-- The report of an error. -/
def message (e : SyntaxError) : String :=
  "Error on " ++ e.pos.describe ++ ": " ++ e.cause.describe

end SyntaxError

end GodelWhile
