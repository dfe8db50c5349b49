import GodelWhile.Grammar.Rule
import GodelWhile.Token.Lexer

/-! # Programs

A program is a suite that fills its source text. -/

namespace GodelWhile

/-- The end of the input, after a program's code. -/
def endOfProgram (c : Code) : Parser Code := do
  Parser.expect .endOfInput .semicolonOrEnd
  return c

/-- Reads a whole program: a suite and then the end of the input. -/
def parseProgram (ts : List Located) : Except SyntaxError Code :=
  (((Rule.suite []).parse ts).andThen endOfProgram).toExcept

/-- The program written in a source text. -/
def parse (source : String) : Except SyntaxError Code :=
  match tokenize source with
  | .error e => .error e
  | .ok ts => parseProgram ts

end GodelWhile
