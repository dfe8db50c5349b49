import GodelWhile.Numbering.Error
import GodelWhile.Value

/-! # Errors of a run -/

namespace GodelWhile

/-- What needed a value that was not there. -/
inductive Need where
  | assignment (name : String)
  | operand (symbol : String)
  | condition
  | number
  deriving DecidableEq, Repr

/-- The need in words. -/
def Need.describe : Need → String
  | .assignment name => "Assignment to " ++ name
  | .operand symbol => "The operand of '" ++ symbol ++ "'"
  | .condition => "The condition"
  | .number => "The Gödel number"

/-- The reason why a run fails. -/
inductive RunError where
  | expectedBoolean (found : ValueType)
  | expectedInteger (found : ValueType)
  | divisionByZero
  | missingValue (need : Need)
  /-- The variable holds no code. -/
  | notCode (name : String)
  | negativeNumber
  | numbering (e : NumberingError)
  /-- The sink did not take all of the output. -/
  | outputFull
  deriving DecidableEq, Repr

/-- The report of an error. -/
def RunError.message : RunError → String
  | .expectedBoolean found => "Expected a boolean, found " ++ found.name ++ "."
  | .expectedInteger found => "Expected an integer, found " ++ found.name ++ "."
  | .divisionByZero => "Division by zero."
  | .missingValue need => need.describe ++ " needs a value, but the expression produced none."
  | .notCode name => "Cannot evaluate non-code value in '" ++ name ++ "'."
  | .negativeNumber => "Cannot decode a negative number."
  | .numbering e => e.message
  | .outputFull => "Could not write output: sink full"

namespace Value

/-- The boolean that the value is. -/
def asBool : Value → Except RunError Bool
  | .bool b => .ok b
  | v => .error (.expectedBoolean v.type)

/-- The integer that the value is. -/
def asInt : Value → Except RunError Int
  | .int n => .ok n
  | v => .error (.expectedInteger v.type)

end Value

end GodelWhile
