/-! # Binary operators

The binary operators of the language, their spelling, and how tightly they bind. There are six
levels of binding; every operator belongs to one of them and groups to the left within it. -/

namespace GodelWhile

/-- The operators that make integers of integers. -/
inductive Arithmetic where
  | mul | div | add | sub
  deriving DecidableEq, Repr

/-- The operators that compare integers. -/
inductive Comparison where
  | lt | le | gt | ge
  deriving DecidableEq, Repr

/-- The binary operators. -/
inductive Operator where
  | arith (a : Arithmetic)
  | compare (c : Comparison)
  | eq
  | and
  | or
  deriving DecidableEq, Repr

/-- The levels of binding, from the loosest to the tightest. -/
inductive Level where
  | disjunction | conjunction | equality | comparison | additive | multiplicative
  deriving DecidableEq, Repr

namespace Operator

/-- How the operator is written. -/
def symbol : Operator → String
  | .arith .mul => "*"
  | .arith .div => "/"
  | .arith .add => "+"
  | .arith .sub => "-"
  | .compare .lt => "<"
  | .compare .le => "<="
  | .compare .gt => ">"
  | .compare .ge => ">="
  | .eq => "="
  | .and => "&"
  | .or => "|"

/-- The level at which the operator binds. -/
def level : Operator → Level
  | .arith .mul | .arith .div => .multiplicative
  | .arith .add | .arith .sub => .additive
  | .compare _ => .comparison
  | .eq => .equality
  | .and => .conjunction
  | .or => .disjunction

/-- All operators. -/
def all : List Operator :=
  [.arith .mul, .arith .div, .arith .add, .arith .sub,
    .compare .lt, .compare .le, .compare .gt, .compare .ge, .eq, .and, .or]

end Operator

namespace Level

/-- The next tighter level; there is none above multiplication. -/
def tighter? : Level → Option Level
  | .disjunction => some .conjunction
  | .conjunction => some .equality
  | .equality => some .comparison
  | .comparison => some .additive
  | .additive => some .multiplicative
  | .multiplicative => none

end Level

end GodelWhile
