import GodelWhile.Numbering.Encoding

/-! # The code of a number

Reading a number back undoes the numbering: the tag says which construct it is, the payload holds
the parts. Every level of nesting uses up one of the levels allowed, so the recursion is on those. -/

namespace GodelWhile

namespace Numbering

/-- The variable at a place among those that have numbers. -/
def variableAt (i : Nat) : Except NumberingError String :=
  match (tableIndex? i).bind (numberedNames[·]?) with
  | some name => .ok name
  | none => .error (.unknownVariableIndex i)

/-- The operator of arithmetic with the given tag. -/
def arithmeticOperator (tag : Nat) : Operator :=
  match tag with
  | 2 => .arith .add
  | 3 => .arith .sub
  | _ => .arith .mul

/-- The relation with the given tag. -/
def relation (tag : Nat) : Operator := if tag = 2 then .eq else .compare .le

/-- Arithmetic code that nests at most `depth` levels. -/
def arithmetic (depth : Nat) (x : Nat) : Except NumberingError Code :=
  match untag 5 x with
  | (n, 0) => .ok (.int n)
  | (i, 1) => (variableAt i).map .var
  | (payload, tag) =>
    match depth with
    | 0 => .error .tooDeep
    | depth + 1 => do
      let (l, r) := unpair payload
      return .binary (arithmeticOperator tag) (← arithmetic depth l) (← arithmetic depth r)

/-- Boolean code that nests at most `depth` levels. -/
def boolean (depth : Nat) (x : Nat) : Except NumberingError Code :=
  if x = 0 then .ok (.bool true)
  else if x = 1 then .ok (.bool false)
  else
    match depth with
    | 0 => .error .tooDeep
    | depth + 1 =>
      match untag 4 x with
      | (payload, 0) => return .not (← boolean depth (payload - 1))
      | (payload, 1) => do
        let (l, r) := unpair (payload - 1)
        return .binary .and (← boolean depth l) (← boolean depth r)
      | (payload, tag) => do
        let (l, r) := unpair payload
        return .binary (relation tag) (← arithmetic depth l) (← arithmetic depth r)

/-- A statement that nests at most `depth` levels. -/
def statement (depth : Nat) (x : Nat) : Except NumberingError Code :=
  if x = 0 then .ok .skip
  else
    match depth with
    | 0 => .error .tooDeep
    | depth + 1 =>
      match untag 4 x with
      | (payload, 1) => do
        let (c, body) := unpair payload
        return .loop (← boolean depth c) (← statement depth body)
      | (payload, 2) => do
        let (i, value) := unpair payload
        return .assign (← variableAt i) (← arithmetic depth value)
      | (payload, 3) => do
        let (a, b) := unpair payload
        return .suite [← statement depth a, ← statement depth b]
      | (payload, _) => do
        let (c, branches) := unpair (payload - 1)
        let (a, b) := unpair branches
        if b = 0 then
          return .ifThen (← boolean depth c) (← statement depth a)
        else
          let no ← statement depth b
          return .ifElse (← boolean depth c) (← statement depth a) no

end Numbering

/-- The code of the given category that has the number `x`. -/
def Code.ofNumber (category : Category) (x : Nat) : Except NumberingError Code :=
  match category with
  | .arithmetic => Numbering.arithmetic Numbering.maxDepth x
  | .boolean => Numbering.boolean Numbering.maxDepth x
  | .statement => Numbering.statement Numbering.maxDepth x

end GodelWhile
