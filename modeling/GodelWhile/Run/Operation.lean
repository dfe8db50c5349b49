import GodelWhile.Run.Error

/-! # Operators on values

Arithmetic and comparisons take integers; of two operands that are none, the left one is reported. -/

namespace GodelWhile

/-- The result of arithmetic on two integers. Division drops the fraction. -/
def Arithmetic.onInts (a : Arithmetic) (m n : Int) : Except RunError Int :=
  match a with
  | .mul => .ok (m * n)
  | .div => if n = 0 then .error .divisionByZero else .ok (m.tdiv n)
  | .add => .ok (m + n)
  | .sub => .ok (m - n)

/-- The result of arithmetic on two values. -/
def Arithmetic.apply (a : Arithmetic) (v w : Value) : Except RunError Value := do
  return .int (← a.onInts (← v.asInt) (← w.asInt))

/-- Whether a comparison of two integers holds. -/
def Comparison.holds (c : Comparison) (m n : Int) : Bool :=
  match c with
  | .lt => m < n
  | .le => m ≤ n
  | .gt => n < m
  | .ge => n ≤ m

/-- The result of a comparison of two values. -/
def Comparison.apply (c : Comparison) (v w : Value) : Except RunError Value := do
  return .bool (c.holds (← v.asInt) (← w.asInt))

end GodelWhile
