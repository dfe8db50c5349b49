import GodelWhile.Code.Render

/-! # Values

What variables hold and expressions yield: integers, booleans, and code. -/

namespace GodelWhile

/-- A value. -/
inductive Value where
  | int (n : Int)
  | bool (b : Bool)
  | code (c : Code)
  deriving DecidableEq, Repr

/-- The types of values. -/
inductive ValueType where
  | integer | boolean | code
  deriving DecidableEq, Repr

/-- The type's name in messages. -/
def ValueType.name : ValueType → String
  | .integer => "integer"
  | .boolean => "boolean"
  | .code => "code"

namespace Value

/-- The value of a variable that was never set. -/
def zero : Value := .int 0

/-- The type of a value. -/
def type : Value → ValueType
  | .int _ => .integer
  | .bool _ => .boolean
  | .code _ => .code

/-- The value as text. -/
def render : Value → String
  | .int n => toString n
  | .bool b => Token.booleanText b
  | .code c => c.render

end Value

end GodelWhile
