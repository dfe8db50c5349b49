import GodelWhile.Run.Error
import GodelWhile.Sink
import GodelWhile.Store

/-! # Machines and runs

A machine holds what a program can change: its variables and what it has written. A run takes a
machine and ends with a value, with the wish to exit, or with an error, in each case leaving a
machine; or it runs out of fuel. -/

namespace GodelWhile

/-- The variables and the output. -/
structure Machine where
  store : Store
  sink : Sink

/-- A machine with nothing written. -/
def Machine.ofStore (store : Store) (limit : Option Nat) : Machine := ⟨store, .empty limit⟩

/-- How a run ends. -/
inductive Ending (α : Type) where
  | value (a : α) (m : Machine)
  | exit (m : Machine)
  | error (e : RunError) (m : Machine)
  | outOfFuel

namespace Ending

variable {α β : Type}

/-- Goes on with the value; any other ending stands. -/
@[inline] def andThen (r : Ending α) (f : α → Machine → Ending β) : Ending β :=
  match r with
  | .value a m => f a m
  | .exit m => .exit m
  | .error e m => .error e m
  | .outOfFuel => .outOfFuel

@[simp] theorem andThen_value (a : α) (m : Machine) (f : α → Machine → Ending β) :
    (Ending.value a m).andThen f = f a m := rfl

@[simp] theorem andThen_exit (m : Machine) (f : α → Machine → Ending β) :
    (Ending.exit m : Ending α).andThen f = .exit m := rfl

@[simp] theorem andThen_error (e : RunError) (m : Machine) (f : α → Machine → Ending β) :
    (Ending.error e m : Ending α).andThen f = .error e m := rfl

@[simp] theorem andThen_outOfFuel (f : α → Machine → Ending β) :
    (Ending.outOfFuel : Ending α).andThen f = .outOfFuel := rfl

end Ending

/-- A computation on machines. -/
def Run (α : Type) : Type := Machine → Ending α

namespace Run

variable {α β : Type}

@[always_inline]
instance : Monad Run where
  pure a := fun m => .value a m
  bind r f := fun m => (r m).andThen fun a m => f a m

@[simp] theorem pure_apply (a : α) (m : Machine) : (pure a : Run α) m = .value a m := rfl

@[simp] theorem bind_apply (r : Run α) (f : α → Run β) (m : Machine) :
    (r >>= f) m = (r m).andThen fun a m => f a m := rfl

/-- Ends with an error. -/
def fail (e : RunError) : Run α := fun m => .error e m

/-- Ends with the wish to exit. -/
def exit : Run α := fun m => .exit m

/-- The result of a computation that needs no machine. -/
def ofExcept : Except RunError α → Run α
  | .ok a => pure a
  | .error e => fail e

/-- The result of a computation of the numbering. -/
def ofNumbering : Except NumberingError α → Run α
  | .ok a => pure a
  | .error e => fail (.numbering e)

/-- The variables. -/
def store : Run Store := fun m => .value m.store m

/-- Sets a variable. -/
def insert (x : String) (v : Value) : Run Unit := fun ⟨store, sink⟩ =>
  .value () ⟨store.insert x v, sink⟩

/-- Forgets all variables. -/
def reset : Run Unit := fun ⟨_, sink⟩ => .value () ⟨.empty, sink⟩

/-- Writes a text; what does not fit is an error. -/
def write (text : String) : Run Unit := fun ⟨store, sink⟩ =>
  match sink.write text with
  | (sink, true) => .value () ⟨store, sink⟩
  | (sink, false) => .error .outputFull ⟨store, sink⟩

theorem write_apply (text : String) (m : Machine) :
    write text m =
      if (m.sink.write text).2 then .value () ⟨m.store, (m.sink.write text).1⟩
      else .error .outputFull ⟨m.store, (m.sink.write text).1⟩ := by
  rcases m with ⟨store, sink⟩
  simp only [write]
  rcases sink.write text with ⟨sink, _ | _⟩ <;> rfl

end Run

end GodelWhile
