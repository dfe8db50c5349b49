/-! # Tagged numbers

A number carries a small tag beside its payload: the tag is the remainder by a fixed modulus, the
payload the quotient. A tag that is not below the modulus spills over into the payload. -/

namespace GodelWhile.Numbering

/-- Puts a tag beside a payload. -/
def tagged (modulus tag payload : Nat) : Nat := payload * modulus + tag

/-- The payload and the tag. -/
def untag (modulus x : Nat) : Nat × Nat := (x / modulus, x % modulus)

/-- One more than the largest place in a table: two to the power 64, so that places fit a word. -/
def tableLimit : Nat := 18446744073709551616

/-- A number taken as a place in a table. -/
def tableIndex? (x : Nat) : Option Nat := if x < tableLimit then some x else none

end GodelWhile.Numbering
