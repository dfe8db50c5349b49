import GodelWhile.Code.Basic
import GodelWhile.Token.Basic

/-! # Code as source text

Every tree has a text. Operands are put in parentheses unless they are atomic, bodies always, and
an item of a suite wherever its text could swallow the item after it. An empty suite has no text of
its own and is written as the statement that does nothing. -/

namespace GodelWhile

namespace Directive

/-- The directive as source text. -/
def render : Directive → String
  | .trace _ => "@trace"
  | .exit => "@exit"
  | .reset => "@reset"
  | .help => "@help"
  | .print name => "@print " ++ name
  | .eval name => "@eval " ++ name

end Directive

namespace Code

/-- Puts a text in parentheses. -/
def parenthesize (s : String) : String := "(" ++ s ++ ")"

/-- An operand's text: in parentheses unless the operand is atomic. -/
def operandText (e : Code) (text : String) : String :=
  if e.isAtomic then text else parenthesize text

mutual

/-- The code as source text. -/
def render : Code → String
  | .int n => toString n
  | .bool b => Token.booleanText b
  | .var name => name
  | .not e => "¬" ++ operandText e (render e)
  | .binary o l r => operandText l (render l) ++ " " ++ o.symbol ++ " " ++ operandText r (render r)
  | .skip => "skip"
  | .assign name value => name ++ " := " ++ render value
  | .suite items => renderItems items
  | .ifThen c a => "if " ++ operandText c (render c) ++ " then " ++ parenthesize (render a)
  | .ifElse c a b =>
      "if " ++ operandText c (render c) ++ " then " ++ parenthesize (render a) ++ " else " ++
        parenthesize (render b)
  | .loop c body => "while " ++ operandText c (render c) ++ " do " ++ parenthesize (render body)
  | .directive d => d.render
  | .number body => "@numeric " ++ parenthesize (render body)
  | .decode cat e => "@from_numeric " ++ cat.name ++ " " ++ operandText e (render e)
  | .run cat e => "@run_numeric " ++ cat.name ++ " " ++ operandText e (render e)

/-- The items of a suite as source text. -/
def renderItems : List Code → String
  | [] => "skip"
  | [a] => render a
  | a :: b :: rest =>
      (if a.isOpenEnded then parenthesize (render a) else render a) ++ "; " ++
        renderItems (b :: rest)

end

end Code

end GodelWhile
