import GodelWhile.Grammar.Program
import GodelWhile.Run.Eval

/-! # Scripts

A script runs from a source text, with arguments in variables named by their place. Unless it is to
be quiet, the run time and the variables are reported after it; variables whose names start with an
underscore are left out. -/

namespace GodelWhile.CommandLine

/-- What a process leaves behind. -/
structure Report where
  status : Nat
  stdout : String
  stderr : String
  deriving DecidableEq, Repr

/-- A report of failure alone. -/
def Report.failure (status : Nat) (message : String) : Report := ⟨status, "", message ++ "\n"⟩

/-- Why a script cannot be read. -/
inductive ReadError where
  | noSuchFile
  | isDirectory
  | notText
  | other (cause : String)
  deriving DecidableEq, Repr

/-- The cause in words. -/
def ReadError.cause : ReadError → String
  | .noSuchFile => "No such file or directory (os error 2)"
  | .isDirectory => "Is a directory (os error 21)"
  | .notText => "stream did not contain valid UTF-8"
  | .other cause => cause

/-- The source text in a file's bytes. -/
def sourceOfBytes (bytes : ByteArray) : Except ReadError String :=
  match String.fromUTF8? bytes with
  | some source => .ok source
  | none => .error .notText

/-- The report that a script cannot be read. -/
def unreadable (path : String) (e : ReadError) : Report :=
  .failure 1 s!"Failed to read the input file '{path}'.: {e.cause}"

/-- The value of an argument: a boolean or a natural number. -/
def argumentValue? (word : String) : Option Value :=
  if word = "true" then some (.bool true)
  else if word = "false" then some (.bool false)
  else if word ≠ "" && word.toList.all Char.isDigit then
    some (.int (Nat.ofDigitChars 10 word.toList 0))
  else none

/-- Binds arguments to variables, of which the first is numbered `n`. The first argument that has no
value is the error. -/
def bindArguments (n : Nat) (s : Store) : List String → Except String Store
  | [] => .ok s
  | word :: rest =>
    match argumentValue? word with
    | some v => bindArguments (n + 1) (s.insert s!"_arg{n}" v) rest
    | none => .error word

/-- The report that an argument has no value. -/
def badArgument (word : String) : Report :=
  .failure 2 s!"Invalid argument '{word}'\nOnly booleans and integers may be passed this way."

/-- The variables shown after a run. -/
def visibleBindings (s : Store) : List (String × Value) :=
  s.bindings.filter fun b => b.1.toList.head? ≠ some '_'

/-- The run time in milliseconds and the variables. -/
def summary (elapsed : String) (s : Store) : String :=
  s!"Completed in {elapsed}ms\n" ++
    String.join ((visibleBindings s).map fun b => Store.bindingText b.1 b.2)

/-- The report of a finished run, which took the time `elapsed`. Running out of fuel is reported as
a failure without words. -/
def scriptReport (quiet : Bool) (elapsed : String) : Ending (Option Value) → Report
  | .value _ m => ⟨0, m.sink.textFrom 0 ++ (if quiet then "" else summary elapsed m.store), ""⟩
  | .exit m => ⟨0, m.sink.textFrom 0 ++ (if quiet then "" else summary elapsed m.store), ""⟩
  | .error e m => ⟨1, m.sink.textFrom 0, e.message ++ "\n"⟩
  | .outOfFuel => .failure 1 ""

/-- A script ready to run, or the report that it is not. The arguments are looked at before the
source. -/
def prepare (source : String) (arguments : List String) : Except Report (Code × Machine) :=
  match bindArguments 0 .empty arguments with
  | .error word => .error (badArgument word)
  | .ok store =>
    match parse source with
    | .error e => .error (.failure 1 e.message)
    | .ok c => .ok (c, .ofStore store none)

end GodelWhile.CommandLine
