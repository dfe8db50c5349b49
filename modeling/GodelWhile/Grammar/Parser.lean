import GodelWhile.Syntax.Error

/-! # Reading from a token stream

A reader takes tokens off the front of a stream. Whether it succeeds or fails, it says which tokens
are left. A stream that has run dry looks as if an end marker followed. -/

namespace GodelWhile

/-- What comes of reading: a value or an error, and the tokens not yet taken. -/
inductive Reply (α : Type) where
  | ok (value : α) (rest : List Located)
  | error (error : SyntaxError) (rest : List Located)
  deriving DecidableEq, Repr

namespace Reply

variable {α β : Type}

/-- The tokens not yet taken. -/
def rest : Reply α → List Located
  | .ok _ rest => rest
  | .error _ rest => rest

/-- Goes on with the value and the tokens left; an error stands. -/
def andThen (r : Reply α) (f : α → List Located → Reply β) : Reply β :=
  match r with
  | .ok a rest => f a rest
  | .error e rest => .error e rest

/-- The value or the error alone. -/
def toExcept : Reply α → Except SyntaxError α
  | .ok a _ => .ok a
  | .error e _ => .error e

@[simp] theorem andThen_ok (a : α) (ts : List Located) (f : α → List Located → Reply β) :
    (Reply.ok a ts).andThen f = f a ts := rfl

@[simp] theorem andThen_error (e : SyntaxError) (ts : List Located)
    (f : α → List Located → Reply β) : (Reply.error e ts).andThen f = .error e ts := rfl

end Reply

/-- A reader of values of type `α`. -/
def Parser (α : Type) : Type := List Located → Reply α

namespace Parser

variable {α β : Type}

instance : Monad Parser where
  pure a := fun ts => .ok a ts
  bind p f := fun ts => (p ts).andThen fun a rest => f a rest

@[simp] theorem pure_apply (a : α) (ts : List Located) : (pure a : Parser α) ts = .ok a ts := rfl

@[simp] theorem bind_apply (p : Parser α) (f : α → Parser β) (ts : List Located) :
    (p >>= f) ts = (p ts).andThen fun a rest => f a rest := rfl

/-- The next token, which stays in the stream; the end marker if there is none. -/
def next : List Located → Located
  | [] => ⟨.endOfInput, .nowhere⟩
  | t :: _ => t

/-- Fails at the next token, of which `expected` says what it should have been. -/
def fail (expected : Expectation) : Parser α := fun ts =>
  .error ⟨(next ts).pos, .unexpectedToken expected (next ts).token⟩ ts

/-- Takes the token `t` if it is next, and says whether it was. -/
def accept (t : Token) : Parser Bool := fun ts =>
  if (next ts).token = t then .ok true ts.tail else .ok false ts

/-- Takes the token `t`, or fails. -/
def expect (t : Token) (expected : Expectation) : Parser Unit := fun ts =>
  if (next ts).token = t then .ok () ts.tail else fail expected ts

/-- Takes a name, or fails. -/
def name : Parser String := fun ts =>
  match ts with
  | ⟨.name s, _⟩ :: rest => .ok s rest
  | _ => fail .name ts

end Parser

end GodelWhile
