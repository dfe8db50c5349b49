import GodelWhile.CommandLine.Script

/-! # Line sessions

A session reads lines and runs each as a program on the same variables. Values go to the standard
output, errors to the standard error; under a syntax error's line a caret points at its place, as if
the line stood after the prompt. -/

namespace GodelWhile.CommandLine

/-- What a line leads to: text for both outputs, and the session after it unless it has ended. -/
structure Response where
  stdout : String
  stderr : String
  store? : Option Store

/-- What is shown in front of a line that is typed. -/
def prompt : String := ">> "

/-- A caret under a column of the line typed after the prompt. -/
def caretLine (column : Nat) : String :=
  String.ofList (List.replicate (prompt.length + (column - 1)) ' ') ++ "^"

/-- What a syntax error is shown as. -/
def syntaxReport (e : SyntaxError) : String :=
  caretLine e.pos.column ++ "\n" ++ e.message ++ "\n"

/-- Text as it stands after its backspaces have taken away what they follow; `typed` is what stands
before it, the last character first. -/
def applyBackspaces : (typed : List Char) → List Char → List Char
  | typed, [] => typed.reverse
  | typed, c :: cs =>
    if c = '\x08' then applyBackspaces typed.tail cs else applyBackspaces (c :: typed) cs

/-- A line without its line end. -/
def chomp (line : List Char) : List Char :=
  match line.reverse with
  | '\n' :: '\r' :: rest => rest.reverse
  | '\n' :: rest => rest.reverse
  | _ => line

/-- The source text of a line read from the input. -/
def sourceOfLine (line : String) : String :=
  String.ofList (applyBackspaces [] (chomp line.toList))

/-- Runs one line, given without its line end. -/
def respond (store : Store) (source : String) : Response :=
  match parse source with
  | .error e => ⟨"", syntaxReport e, some store⟩
  | .ok (.suite []) => ⟨"", "", some store⟩
  | .ok c =>
    match c.eval (.ofStore store none) with
    | .value (some v) m => ⟨m.sink.textFrom 0 ++ v.render ++ "\n", "", some m.store⟩
    | .value none m => ⟨m.sink.textFrom 0, "", some m.store⟩
    | .exit m => ⟨m.sink.textFrom 0, "", none⟩
    | .error e m => ⟨m.sink.textFrom 0, e.message ++ "\n", some m.store⟩
    | .outOfFuel => ⟨"", "", none⟩

/-- Cuts a text into lines that keep their line ends; `line` is the line so far, the last character
first. -/
def splitLines : (line : List Char) → List Char → List String
  | [], [] => []
  | line, [] => [String.ofList line.reverse]
  | line, c :: cs =>
    if c = '\n' then String.ofList (c :: line).reverse :: splitLines [] cs
    else splitLines (c :: line) cs

end GodelWhile.CommandLine
