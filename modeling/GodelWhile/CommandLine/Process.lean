import GodelWhile.CommandLine.Invocation
import GodelWhile.CommandLine.Session

/-! # Processes

A whole run of the program. What it does is said once, over a console that reads files and lines,
puts text out and takes the time. The program itself runs over the console of the system; `process`
runs over a console made of data, which makes a run a function of its command line, the files it can
read, its standard input, and the time that running a script takes. -/

namespace GodelWhile.CommandLine

/-- The name and version of the program. -/
def versionText : String := "while 0.1.0\n"

/-- What a process asks of its surroundings. -/
structure Console (μ : Type → Type) where
  /-- Reads the source text in the file at a path. -/
  read : String → μ (Except ReadError String)
  /-- Reads a line with its line end, unless the standard input has ended. -/
  line? : μ (Option String)
  /-- Puts text out on both outputs. -/
  put : (stdout stderr : String) → μ Unit
  /-- Makes a run and tells its time in milliseconds. -/
  timed : (Unit → Ending (Option Value)) → μ (Ending (Option Value) × String)

section Console

variable {μ : Type → Type} [Monad μ] (console : Console μ)

/-- Puts a report out and gives its status. -/
def Report.emit (r : Report) : μ Nat := do
  console.put r.stdout r.stderr
  return r.status

/-- Runs a script. -/
def runScript (source : String) (arguments : List String) (quiet : Bool) : μ Nat := do
  match prepare source arguments with
  | .error report => report.emit console
  | .ok (c, m) =>
    let (ending, elapsed) ← console.timed fun _ => c.eval m
    (scriptReport quiet elapsed ending).emit console

/-- Reads lines and answers each, until the input or the session ends, or `fuel` lines are read. -/
def answerLines : (fuel : Nat) → Store → μ Nat
  | 0, _ => return 0
  | fuel + 1, store => do
    match ← console.line? with
    | none => return 0
    | some line =>
      let r := respond store (sourceOfLine line)
      console.put r.stdout r.stderr
      match r.store? with
      | some store => answerLines fuel store
      | none => return 0

/-- Does what a command line asks for. -/
def Invocation.run : Invocation → μ Nat
  | .version => Report.emit console ⟨0, versionText, ""⟩
  | .command source arguments quiet => runScript console source arguments quiet
  | .script path arguments quiet => do
    match ← console.read path with
    | .error e => (unreadable path e).emit console
    | .ok source => runScript console source arguments quiet
  | .session => answerLines console Code.ampleFuel .empty

/-- A whole run of the program with the words of its command line. -/
def runWords (words : List String) : μ Nat :=
  match Invocation.ofWords words with
  | .error e => (Report.failure 2 e.message).emit console
  | .ok invocation => invocation.run console

end Console

/-- What a process can see besides its command line. -/
structure Surroundings where
  /-- The source text in the file at a path. -/
  read : String → Except ReadError String
  stdin : String
  /-- The run time of a script, in milliseconds. -/
  elapsed : String

/-- The lines that are left to read, and what has been put out. -/
structure Transcript where
  lines : List String
  stdout : String
  stderr : String

/-- The console that shows the given surroundings. -/
def Surroundings.console (s : Surroundings) : Console (StateM Transcript) where
  read path := return s.read path
  line? := modifyGet fun t =>
    match t.lines with
    | [] => (none, t)
    | line :: rest => (some line, { t with lines := rest })
  put stdout stderr := modify fun t =>
    { t with stdout := t.stdout ++ stdout, stderr := t.stderr ++ stderr }
  timed run := return (run (), s.elapsed)

/-- The report of a whole run of the program. -/
def process (s : Surroundings) (words : List String) : Report :=
  let (status, t) := (runWords s.console words).run ⟨splitLines [] s.stdin.toList, "", ""⟩
  ⟨status, t.stdout, t.stderr⟩

end GodelWhile.CommandLine
