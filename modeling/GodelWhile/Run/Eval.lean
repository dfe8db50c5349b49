import GodelWhile.Numbering.Decoding
import GodelWhile.Run.Help
import GodelWhile.Run.Machine
import GodelWhile.Run.Operation

/-! # Running code

Code runs on a machine and yields a value or none. Statements yield none; a suite yields what its
last item yields, and zero if it has no items.

Programs need not end, so the depth of calls is bounded by fuel: every call uses up one unit, also
the call that goes round a loop again. A run that ends does so the same way with more fuel. -/

namespace GodelWhile

namespace Code

section Parts

/- The parts below run the code they hold by `sub`. -/
variable (sub : Code → Run (Option Value))

/-- The value of code that has to have one. -/
def evalValue (need : Need) (e : Code) : Run Value := do
  match ← sub e with
  | some v => return v
  | none => Run.fail (.missingValue need)

/-- The truth of code that has to be a boolean. -/
def evalTruth (need : Need) (e : Code) : Run Bool := do
  Run.ofExcept (← evalValue sub need e).asBool

/-- The value of an operand. -/
def evalOperand (o : Operator) (e : Code) : Run Value := evalValue sub (.operand o.symbol) e

/-- The truth of an operand. -/
def evalOperandTruth (symbol : String) (e : Code) : Run Bool := evalTruth sub (.operand symbol) e

/-- The value of an operator's application. The logical operators leave their right operand alone
where the left one decides. -/
def evalBinary (o : Operator) (l r : Code) : Run Value := do
  match o with
  | .arith a =>
    let v ← evalOperand sub o l
    let w ← evalOperand sub o r
    Run.ofExcept (a.apply v w)
  | .compare c =>
    let v ← evalOperand sub o l
    let w ← evalOperand sub o r
    Run.ofExcept (c.apply v w)
  | .eq =>
    let v ← evalOperand sub o l
    let w ← evalOperand sub o r
    return .bool (v = w)
  | .and =>
    if ← evalOperandTruth sub o.symbol l then return .bool (← evalOperandTruth sub o.symbol r)
    else return .bool false
  | .or =>
    if ← evalOperandTruth sub o.symbol l then return .bool true
    else return .bool (← evalOperandTruth sub o.symbol r)

/-- Runs items in order; the value is the last one's, and `v` if there is none. -/
def evalItems : List Code → Option Value → Run (Option Value)
  | [], v => return v
  | a :: rest, _ => fun m => (sub a m).andThen fun v m => evalItems rest v m

/-- Runs code for its effect. -/
def evalEffect (c : Code) : Run (Option Value) := do
  let _ ← sub c
  return none

/-- The code whose number is the value of `e`. -/
def evalDecoded (category : Category) (e : Code) : Run Code := do
  let n ← Run.ofExcept (← evalValue sub .number e).asInt
  if n < 0 then Run.fail .negativeNumber
  else Run.ofNumbering (Code.ofNumber category n.toNat)

end Parts

/-- Writes a line for each binding, indented. -/
def writeBindings : List (String × Value) → Run Unit
  | [] => return
  | (x, v) :: rest => do
    Run.write ("  " ++ Store.bindingText x v)
    writeBindings rest

/-- Writes all variables, under a headline that says where. -/
def writeTrace (p : Position) : Run Unit := do
  Run.write s!"-=-=-=- Trace on line {p.line} -=-=-=-\n"
  writeBindings (← Run.store).bindings

/-- Writes one variable. -/
def writeVariable (x : String) : Run Unit := do
  Run.write (Store.bindingText x ((← Run.store).get x))

/-- The code held by a variable. -/
def heldCode (x : String) : Run Code := do
  match (← Run.store).get? x with
  | some (.code c) => return c
  | _ => Run.fail (.notCode x)

/-- Runs code whose parts, and whose next round, are run by `sub`. -/
@[inline] def evalStep (sub : Code → Run (Option Value)) (c : Code) (m : Machine) :
    Ending (Option Value) :=
  match c with
  | .int n => .value (some (.int n)) m
  | .bool b => .value (some (.bool b)) m
  | .var x => .value (some (m.store.get x)) m
  | .not e => (evalOperandTruth sub "¬" e m).andThen fun b m => .value (some (.bool !b)) m
  | .binary o l r => (evalBinary sub o l r m).andThen fun v m => .value (some v) m
  | .skip => .value none m
  | .assign x e =>
    (evalValue sub (.assignment x) e m).andThen fun v m =>
      (Run.insert x v m).andThen fun _ m => .value none m
  | .suite items => evalItems sub items (some .zero) m
  | .ifThen c a =>
    (evalTruth sub .condition c m).andThen fun b m =>
      if b then evalEffect sub a m else .value none m
  | .ifElse c a a' =>
    (evalTruth sub .condition c m).andThen fun b m => evalEffect sub (if b then a else a') m
  | .loop c body =>
    (evalTruth sub .condition c m).andThen fun b m =>
      if b then (sub body m).andThen fun _ m => sub (.loop c body) m else .value none m
  | .directive (.trace p) => (writeTrace p m).andThen fun _ m => .value none m
  | .directive .exit => .exit m
  | .directive .reset => (Run.reset m).andThen fun _ m => .value none m
  | .directive .help => (Run.write helpText m).andThen fun _ m => .value none m
  | .directive (.print x) => (writeVariable x m).andThen fun _ m => .value none m
  | .directive (.eval x) => (heldCode x m).andThen fun c m => sub c m
  | .number body => (Run.ofNumbering body.toNumber m).andThen fun n m => .value (some (.int n)) m
  | .decode cat e => (evalDecoded sub cat e m).andThen fun c m => .value (some (.code c)) m
  | .run cat e => (evalDecoded sub cat e m).andThen fun c m => sub c m

/-- Runs code, with calls nested at most `fuel` deep. -/
def evalWithin : Nat → Code → Machine → Ending (Option Value)
  | 0, _, _ => .outOfFuel
  | fuel + 1, c, m => evalStep (evalWithin fuel) c m

/-- More calls than any program that ends in a lifetime makes: two to the power 62. -/
def ampleFuel : Nat := 4611686018427387904

/-- Runs code on a machine. -/
def eval (c : Code) (m : Machine) : Ending (Option Value) := evalWithin ampleFuel c m

end Code

end GodelWhile
