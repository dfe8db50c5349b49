import GodelWhile.Code.Basic
import GodelWhile.Grammar.Parser

/-! # The grammar

    suite      :=  [item (';' item)* [';']]
    item       :=  '(' suite ')'  |  statement
    statement  :=  'skip'
                |  'if' expression 'then' suite ['else' suite]
                |  'while' expression 'do' suite
                |  NAME ':=' expression
                |  expression
    expression :=  operands joined by operators, on six levels, each grouping to the left
    factor     :=  ['!'] primary
    primary    :=  '(' expression ')'  |  NAME  |  NUMBER  |  BOOLEAN  |  directive

A semicolon may close a suite only at the end of the input. An item in parentheses is a suite unless
an operator follows it; then it is read again as the first operand of an expression.

Each rule calls other rules on what is left of the stream. A call either comes after a token has
been taken or goes to a rule further down the list above, so the depth of calls is bounded by the
length of the stream; that bound is the fuel of `Rule.parseWithin`. -/

namespace GodelWhile

/-- The rules of the grammar that call each other. Two of them go on with what has been read. -/
inductive Rule where
  /-- A suite, after the items `done`, the last of them first. -/
  | suite (done : List Code)
  | item
  | statement
  /-- Operands joined by operators of one level. -/
  | level (l : Level)
  /-- The operators of one level and their right operands, after the left operand. -/
  | operators (l : Level) (left : Code)
  | factor
  | primary
  deriving DecidableEq, Repr

namespace Rule

/-- Any expression. -/
def expression : Rule := .level .disjunction

/-- What the operators of a level join. -/
def operand (l : Level) : Rule :=
  match l.tighter? with
  | some tight => .level tight
  | none => .factor

/-- Whether a token goes on an expression to its left. -/
def continuesExpression : Token → Bool
  | .operator _ => true
  | _ => false

/-- The operator of level `l` at the front of the stream, and what follows it. -/
def operator? (l : Level) : List Located → Option (Operator × List Located)
  | ⟨.operator o, _⟩ :: rest => if o.level = l then some (o, rest) else none
  | _ => none

section Readers

/- The readers below are the right-hand sides of the rules; `sub` reads the rules they call. -/
variable (sub : Rule → Parser Code)

/-- The inside of a parenthesised suite, and the closing parenthesis. -/
def group : Parser Code := do
  let nested ← sub (.suite [])
  Parser.expect .closeParen .closeParen
  return nested

/-- An item of a suite. A parenthesised one that fails is given up as a whole: no token of it has
been taken then. -/
def itemBody : Parser Code := fun ts =>
  match ts with
  | ⟨.openParen, _⟩ :: inside =>
    match group sub inside with
    | .error e _ => .error e ts
    | .ok nested rest =>
      if continuesExpression (Parser.next rest).token then sub .statement ts else .ok nested rest
  | _ => sub .statement ts

/-- What follows the items `done` of a suite: more of them behind a semicolon, or its end. -/
def moreItems (done : List Code) : Parser Code := fun ts =>
  match ts with
  | ⟨.semicolon, _⟩ :: rest => sub (.suite done) rest
  | _ => .ok (.suite done.reverse) ts

/-- The items of a suite that follow the items `done`; none at the end of the input. -/
def suiteBody (done : List Code) : Parser Code := fun ts =>
  if (Parser.next ts).token = .endOfInput then .ok (.suite done.reverse) ts
  else (sub .item ts).andThen fun c rest => moreItems sub (c :: done) rest

/-- The rest of an `if` statement. -/
def conditional : Parser Code := do
  let condition ← sub expression
  Parser.expect (.keyword .thenWord) .thenWord
  let yes ← sub (.suite [])
  if ← Parser.accept (.keyword .elseWord) then
    let no ← sub (.suite [])
    return .ifElse condition yes no
  else
    return .ifThen condition yes

/-- The rest of a `while` statement. -/
def repetition : Parser Code := do
  let condition ← sub expression
  Parser.expect (.keyword .doWord) .doWord
  let body ← sub (.suite [])
  return .loop condition body

/-- The value of an assignment to `x`. -/
def assignment (x : String) : Parser Code := do
  let value ← sub expression
  return .assign x value

/-- A statement. -/
def statementBody : Parser Code := fun ts =>
  match ts with
  | ⟨.keyword .skip, _⟩ :: rest => .ok .skip rest
  | ⟨.keyword .ifWord, _⟩ :: rest => conditional sub rest
  | ⟨.keyword .whileWord, _⟩ :: rest => repetition sub rest
  | ⟨.name x, _⟩ :: ⟨.assign, _⟩ :: rest => assignment sub x rest
  | _ => sub expression ts

/-- Operands joined by operators of level `l`. -/
def levelBody (l : Level) : Parser Code := do
  let left ← sub (operand l)
  sub (.operators l left)

/-- The right operand of the operator `o`, and the operators of its level that follow. -/
def operation (l : Level) (o : Operator) (left : Code) : Parser Code := do
  let right ← sub (operand l)
  sub (.operators l (.binary o left right))

/-- The operators of level `l` that follow the operand `left`. -/
def operatorsBody (l : Level) (left : Code) : Parser Code := fun ts =>
  match operator? l ts with
  | none => .ok left ts
  | some (o, rest) => operation sub l o left rest

/-- The name of a category of code. -/
def category : Parser Category := fun ts =>
  match ts with
  | ⟨.name s, p⟩ :: rest =>
    match Category.ofName? s with
    | some c => .ok c rest
    | none => .error ⟨p, .unknownCategory s⟩ rest
  | _ => Parser.fail .name ts

/-- The rest of the directive named by `word`, which stands at `p`. -/
def directive (p : Position) (word : DirectiveWord) : Parser Code :=
  match word with
  | .trace => return .directive (.trace p)
  | .exit => return .directive .exit
  | .help => return .directive .help
  | .reset => return .directive .reset
  | .print => do return .directive (.print (← Parser.name))
  | .eval => do return .directive (.eval (← Parser.name))
  | .numeric => do return .number (← sub (.suite []))
  | .fromNumeric => do
    let c ← category
    return .decode c (← sub .statement)
  | .runNumeric => do
    let c ← category
    return .run c (← sub .statement)

/-- The rest of a parenthesised expression. -/
def parenthesized : Parser Code := do
  let e ← sub expression
  Parser.expect .closeParen .closeParen
  return e

/-- An expression without operators. -/
def primaryBody : Parser Code := fun ts =>
  match ts with
  | ⟨.openParen, _⟩ :: rest => parenthesized sub rest
  | ⟨.name x, _⟩ :: rest => .ok (.var x) rest
  | ⟨.number n, _⟩ :: rest => .ok (.int n) rest
  | ⟨.boolean b, _⟩ :: rest => .ok (.bool b) rest
  | ⟨.directive s, p⟩ :: rest =>
    match DirectiveWord.ofText? s with
    | some word => directive sub p word rest
    | none => .error ⟨p, .unknownDirective s⟩ rest
  | _ => Parser.fail .expression ts

/-- A negated primary. -/
def negation : Parser Code := do
  let e ← sub .primary
  return .not e

/-- An operand of the tightest operators. -/
def factorBody : Parser Code := fun ts =>
  match ts with
  | ⟨.bang, _⟩ :: rest => negation sub rest
  | _ => sub .primary ts

/-- Reads by a rule, given the reader of the rules it calls. -/
def step : Rule → Parser Code
  | .suite done => suiteBody sub done
  | .item => itemBody sub
  | .statement => statementBody sub
  | .level l => levelBody sub l
  | .operators l left => operatorsBody sub l left
  | .factor => factorBody sub
  | .primary => primaryBody sub

end Readers

/-- Reads by a rule, with calls nested at most `fuel` deep. Without fuel nothing is taken and no
expression found; `depthBound` is fuel enough for this never to show. -/
def parseWithin : Nat → Rule → Parser Code
  | 0, _ => Parser.fail .expression
  | fuel + 1, r => step (parseWithin fuel) r

/-- Eleven calls at most lie between one token and the next. -/
def depthBound (ts : List Located) : Nat := 11 * (ts.length + 1)

/-- Reads by a rule from the front of a token stream. -/
def parse (r : Rule) : Parser Code := fun ts => parseWithin (depthBound ts) r ts

end Rule

end GodelWhile
