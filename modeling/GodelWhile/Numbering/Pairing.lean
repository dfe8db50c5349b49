/-! # Pairs of numbers as numbers

Every positive number is a power of two times an odd number in one way, so `(n, m)` can be stored as
the predecessor of `2 ^ n * (2 * m + 1)`, and every number stores exactly one pair. The exponent is
limited, because the stored number has more bits than the exponent says. -/

namespace GodelWhile.Numbering

/-- The largest first component that can be stored: two to the power 24. -/
def maxExponent : Nat := 16777216

/-- The value, if it does not exceed the limit. -/
def atMost? (limit value : Nat) : Option Nat := if value ≤ limit then some value else none

/-- The number that stores the pair `(n, m)`, whatever the size of `n`. -/
def pair (n m : Nat) : Nat := ((2 * m + 1) <<< n) - 1

/-- The number that stores the pair `(n, m)`, if `n` is within the limit. -/
def pair? (n m : Nat) : Option Nat := (atMost? maxExponent n).map (pair · m)

/-- How often two divides `x + 1`: adding one to `x` changes just its trailing ones and the zero
above them, so the highest changed bit is at that place. -/
def exponent (x : Nat) : Nat := ((x + 1) ^^^ x).log2

/-- The pair stored in `x`. -/
def unpair (x : Nat) : Nat × Nat := (exponent x, (x + 1) >>> (exponent x + 1))

end GodelWhile.Numbering
