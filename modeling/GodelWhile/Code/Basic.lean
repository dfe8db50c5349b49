import GodelWhile.Operator
import GodelWhile.Position

/-! # Code

The syntax trees of the language. Expressions and statements share one type, because any piece of
code can stand where a value is wanted, and can itself be a value. -/

namespace GodelWhile

/-- The categories of code that have numberings of their own. -/
inductive Category where
  | arithmetic | boolean | statement
  deriving DecidableEq, Repr

namespace Category

/-- The name by which a program asks for the category. -/
def name : Category → String
  | .arithmetic => "a"
  | .boolean => "b"
  | .statement => "stmt"

/-- The category of the given name. -/
def ofName? (s : String) : Option Category :=
  if s = "a" then some .arithmetic
  else if s = "b" then some .boolean
  else if s = "stmt" then some .statement
  else none

theorem ofName?_name (c : Category) : ofName? c.name = some c := by
  cases c <;> simp [ofName?, name]

end Category

/-- The directives that hold no code. -/
inductive Directive where
  /-- Writes all variables; remembers where in the source it stands. -/
  | trace (pos : Position)
  /-- Ends the program. -/
  | exit
  /-- Forgets all variables. -/
  | reset
  /-- Writes the list of directives. -/
  | help
  /-- Writes one variable. -/
  | print (name : String)
  /-- Runs the code held by a variable. -/
  | eval (name : String)
  deriving DecidableEq, Repr

/-- A syntax tree. -/
inductive Code where
  | int (n : Int)
  | bool (b : Bool)
  | var (name : String)
  | not (e : Code)
  | binary (o : Operator) (left right : Code)
  | skip
  | assign (name : String) (value : Code)
  | suite (items : List Code)
  | ifThen (condition yes : Code)
  | ifElse (condition yes no : Code)
  | loop (condition body : Code)
  | directive (d : Directive)
  /-- The number of the given code. -/
  | number (body : Code)
  /-- The code of the given number, as a value. -/
  | decode (category : Category) (number : Code)
  /-- The code of the given number, run on the spot. -/
  | run (category : Category) (number : Code)
  deriving Repr

namespace Code

/-! ### Equality -/

mutual

/-- Structural equality, decided. -/
def same : Code → Code → Bool
  | .int m, .int n => m = n
  | .bool a, .bool b => a = b
  | .var x, .var y => x = y
  | .not a, .not b => same a b
  | .binary o a b, .binary p c d => o = p && same a c && same b d
  | .skip, .skip => true
  | .assign x a, .assign y b => x = y && same a b
  | .suite as, .suite bs => sameItems as bs
  | .ifThen a b, .ifThen c d => same a c && same b d
  | .ifElse a b c, .ifElse d e f => same a d && same b e && same c f
  | .loop a b, .loop c d => same a c && same b d
  | .directive d, .directive e => d = e
  | .number a, .number b => same a b
  | .decode c a, .decode d b => c = d && same a b
  | .run c a, .run d b => c = d && same a b
  | _, _ => false

/-- Structural equality of lists of code, decided. -/
def sameItems : List Code → List Code → Bool
  | [], [] => true
  | a :: as, b :: bs => same a b && sameItems as bs
  | _, _ => false

end

mutual

theorem same_iff : ∀ a b : Code, a.same b = true ↔ a = b
  | .int _, b => by cases b <;> simp [same]
  | .bool _, b => by cases b <;> simp [same]
  | .var _, b => by cases b <;> simp [same]
  | .not a, b => by cases b <;> simp [same, same_iff a]
  | .binary _ a a', b => by cases b <;> simp [same, same_iff a, same_iff a', and_assoc]
  | .skip, b => by cases b <;> simp [same]
  | .assign _ a, b => by cases b <;> simp [same, same_iff a]
  | .suite as, b => by cases b <;> simp [same, sameItems_iff as]
  | .ifThen a a', b => by cases b <;> simp [same, same_iff a, same_iff a']
  | .ifElse a a' a'', b => by
      cases b <;> simp [same, same_iff a, same_iff a', same_iff a'', and_assoc]
  | .loop a a', b => by cases b <;> simp [same, same_iff a, same_iff a']
  | .directive _, b => by cases b <;> simp [same]
  | .number a, b => by cases b <;> simp [same, same_iff a]
  | .decode _ a, b => by cases b <;> simp [same, same_iff a]
  | .run _ a, b => by cases b <;> simp [same, same_iff a]

theorem sameItems_iff : ∀ as bs : List Code, sameItems as bs = true ↔ as = bs
  | [], bs => by cases bs <;> simp [sameItems]
  | a :: as, bs => by cases bs <;> simp [sameItems, same_iff a, sameItems_iff as]

end

instance : DecidableEq Code := fun a b => decidable_of_iff _ (same_iff a b)

/-! ### Names and shape -/

/-- What an operator makes of its operands, in words. -/
def operationName : Operator → String
  | .arith .mul => "multiplication"
  | .arith .div => "division"
  | .arith .add => "addition"
  | .arith .sub => "subtraction"
  | .compare _ => "comparison"
  | .eq => "equality"
  | .and => "conjunction"
  | .or => "disjunction"

/-- What kind of code this is, in words. -/
def kindName : Code → String
  | .int _ | .bool _ => "constant"
  | .var _ => "variable"
  | .not _ => "negation"
  | .binary o _ _ => operationName o
  | .skip => "skip"
  | .assign _ _ => "assignment"
  | .suite _ => "suite"
  | .ifThen _ _ | .ifElse _ _ _ => "if"
  | .loop _ _ => "while"
  | .directive (.trace _) => "@trace"
  | .directive .exit => "@exit"
  | .directive .reset => "@reset"
  | .directive .help => "@help"
  | .directive (.print _) => "@print"
  | .directive (.eval _) => "@eval"
  | .number _ => "@numeric"
  | .decode _ _ => "@from_numeric"
  | .run _ _ => "@run_numeric"

/-- Constants and variables, which never need parentheses. -/
def isAtomic : Code → Bool
  | .int _ | .bool _ | .var _ => true
  | _ => false

mutual

/-- Code whose text could swallow what is written after it: it ends in a suite without closing
parenthesis. -/
def isOpenEnded : Code → Bool
  | .ifThen _ _ | .ifElse _ _ _ | .loop _ _ | .number _ => true
  | .suite items => endsOpen items
  | .assign _ value => isOpenEnded value
  | _ => false

/-- Whether the last item is open-ended. -/
def endsOpen : List Code → Bool
  | [] => false
  | [a] => isOpenEnded a
  | _ :: b :: rest => endsOpen (b :: rest)

end

end Code

end GodelWhile
