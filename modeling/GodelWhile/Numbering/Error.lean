/-! # Errors of the numbering

What has no number, and which numbers stand for no code. -/

namespace GodelWhile

/-- How deep the code of a number may nest. -/
def Numbering.maxDepth : Nat := 1024

/-- The reason why code has no number, or a number no code. -/
inductive NumberingError where
  /-- Code of this kind has no number. -/
  | unnumbered (kind : String)
  | negativeConstant
  | unknownVariable (name : String)
  /-- A variable as an operand of a logical operator would be taken for a boolean. -/
  | bareVariableOperand
  | unknownVariableIndex (index : Nat)
  | tooLarge
  | tooDeep
  deriving DecidableEq, Repr

namespace NumberingError

/-- The report of an error. -/
def message : NumberingError → String
  | .unnumbered kind => s!"Cannot encode {kind} numerically."
  | .negativeConstant => "Negative constants have no numeric encoding."
  | .unknownVariable name =>
      s!"Variable '{name}' has no numeric encoding. Only x, y and z can be encoded."
  | .bareVariableOperand =>
      "The operands of '&' and '|' cannot be bare variables in numeric form."
  | .unknownVariableIndex index => s!"Variable index {index} does not name a variable."
  | .tooLarge => "Number is too large to encode."
  | .tooDeep => s!"Number nests more than {Numbering.maxDepth} levels deep and cannot be decoded."

end NumberingError

end GodelWhile
