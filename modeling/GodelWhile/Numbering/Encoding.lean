import GodelWhile.Code.Basic
import GodelWhile.Numbering.Error
import GodelWhile.Numbering.Pairing
import GodelWhile.Numbering.Tag

/-! # The number of a piece of code

Arithmetic carries its tag modulo five, booleans and statements modulo four. Operators outside the
numbered ones are expressed by those inside: `≥`, `<`, `>` by `≤` and negation, disjunction by
conjunction and negation. A suite is numbered as right-nested pairs, and what does nothing to the
variables counts as the empty suite. -/

namespace GodelWhile

namespace Numbering

/-- The variables that have numbers, in order. -/
def numberedNames : List String := ["x", "y", "z"]

/-- The place of a variable among those that have numbers. -/
def variableIndex (name : String) : Except NumberingError Nat :=
  match numberedNames.idxOf? name with
  | some i => .ok i
  | none => .error (.unknownVariable name)

/-- The number that stores a pair, or the complaint that it is too large. -/
def pairing (n m : Nat) : Except NumberingError Nat :=
  match pair? n m with
  | some x => .ok x
  | none => .error .tooLarge

/-- Tags the number that stores a pair. -/
def taggedPair (modulus tag n m : Nat) : Except NumberingError Nat :=
  (pairing n m).map (tagged modulus tag)

/-- The number of the negation of a boolean. -/
def negated (n : Nat) : Nat := tagged 4 4 n

/-- Variables as operands of logical operators have no number. -/
def checkOperands : Code → Code → Except NumberingError Unit
  | .var _, _ => .error .bareVariableOperand
  | _, .var _ => .error .bareVariableOperand
  | _, _ => .ok ()

end Numbering

namespace Code

open GodelWhile.Numbering

mutual

/-- The number of a piece of code. -/
def toNumber : Code → Except NumberingError Nat
  | .int n => if 0 ≤ n then .ok (tagged 5 0 n.toNat) else .error .negativeConstant
  | .bool b => .ok (if b then 0 else 1)
  | .var name => (variableIndex name).map (tagged 5 1)
  | .not e => return negated (← toNumber e)
  | .binary (.arith .add) l r => do taggedPair 5 2 (← toNumber l) (← toNumber r)
  | .binary (.arith .sub) l r => do taggedPair 5 3 (← toNumber l) (← toNumber r)
  | .binary (.arith .mul) l r => do taggedPair 5 4 (← toNumber l) (← toNumber r)
  | .binary (.arith .div) _ _ => .error (.unnumbered (operationName (.arith .div)))
  | .binary .eq l r => do taggedPair 4 2 (← toNumber l) (← toNumber r)
  | .binary (.compare .le) l r => do taggedPair 4 3 (← toNumber l) (← toNumber r)
  | .binary (.compare .ge) l r => do taggedPair 4 3 (← toNumber r) (← toNumber l)
  | .binary (.compare .lt) l r => do return negated (← taggedPair 4 3 (← toNumber r) (← toNumber l))
  | .binary (.compare .gt) l r => do return negated (← taggedPair 4 3 (← toNumber l) (← toNumber r))
  | .binary .and l r => do
    checkOperands l r
    taggedPair 4 5 (← toNumber l) (← toNumber r)
  | .binary .or l r => do
    checkOperands l r
    return negated (← taggedPair 4 5 (negated (← toNumber l)) (negated (← toNumber r)))
  | .skip => .ok 0
  | .assign name value => do taggedPair 4 2 (← variableIndex name) (← toNumber value)
  | .suite items => itemsToNumber items
  | .ifThen c a => do
    let branches ← pairing (← toNumber a) 0
    taggedPair 4 4 (← toNumber c) branches
  | .ifElse c a b => do
    let no ← toNumber b
    let branches ← pairing (← toNumber a) no
    taggedPair 4 4 (← toNumber c) branches
  | .loop c body => do taggedPair 4 1 (← toNumber c) (← toNumber body)
  | .directive (.trace _) | .directive (.print _) | .directive .help => .ok 0
  | .directive .exit => .error (.unnumbered (kindName (.directive .exit)))
  | .directive .reset => .error (.unnumbered (kindName (.directive .reset)))
  | .directive (.eval x) => .error (.unnumbered (kindName (.directive (.eval x))))
  | .number body => .error (.unnumbered (kindName (.number body)))
  | .decode cat e => .error (.unnumbered (kindName (.decode cat e)))
  | .run cat e => .error (.unnumbered (kindName (.run cat e)))

/-- The number of a suite: its last item's, paired from the right with those before it. -/
def itemsToNumber : List Code → Except NumberingError Nat
  | [] => .ok 0
  | [a] => toNumber a
  | a :: b :: rest => do
    let following ← itemsToNumber (b :: rest)
    taggedPair 4 3 (← toNumber a) following

end

end Code

end GodelWhile
