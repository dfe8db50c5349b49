/-! # Invocations

What the words of a command line ask for. Options may stand before, between and after the other
words; everything after a lone `--` is taken as it is.

    -c SOURCE, --command SOURCE, --command=SOURCE    the program itself
    -q, --quiet                                      no report after the run
    -V, --version                                    the version

Short options may be joined, the value of the last one included. -/

namespace GodelWhile.CommandLine

/-- What is wrong with a command line. -/
inductive UsageError where
  | unknownOption (word : String)
  | missingValue (option : String)
  | unwantedValue (option : String)
  | repeatedOption (option : String)
  deriving DecidableEq, Repr

/-- The report of an error. -/
def UsageError.message : UsageError → String
  | .unknownOption word => s!"error: unexpected argument '{word}' found"
  | .missingValue option => s!"error: a value is required for '{option}' but none was supplied"
  | .unwantedValue option => s!"error: unexpected value for '{option}' found"
  | .repeatedOption option => s!"error: the argument '{option}' cannot be used multiple times"

/-- The words of a command line, sorted. `others` holds the words that are no options, the last of
them first. -/
structure Words where
  command? : Option String
  quiet : Bool
  version : Bool
  others : List String
  deriving DecidableEq, Repr

namespace Words

/-- No words. -/
def none : Words := ⟨.none, false, false, []⟩

/-- Adds the program itself. -/
def setCommand (w : Words) (source : String) : Except UsageError Words :=
  match w.command? with
  | .none => .ok { w with command? := some source }
  | some _ => .error (.repeatedOption "--command")

/-- Adds the wish for no report. -/
def setQuiet (w : Words) : Except UsageError Words :=
  if w.quiet then .error (.repeatedOption "--quiet") else .ok { w with quiet := true }

end Words

/-- Whether an option's value is still to come, after the words read so far. -/
inductive Awaiting where
  | nothing
  | command
  deriving DecidableEq, Repr

/-- Joined short options, without their dash. The version option ends the reading. -/
def readShort (word : String) : List Char → Words → Except UsageError (Words × Awaiting)
  | [], w => .ok (w, .nothing)
  | 'q' :: cs, w => do readShort word cs (← w.setQuiet)
  | 'V' :: _, w => .ok ({ w with version := true }, .nothing)
  | ['c'], w => .ok (w, .command)
  | 'c' :: '=' :: cs, w => do return (← w.setCommand (String.ofList cs), .nothing)
  | 'c' :: cs, w => do return (← w.setCommand (String.ofList cs), .nothing)
  | _ :: _, _ => .error (.unknownOption word)

/-- A long option, without its dashes, and the value joined to it by an equals sign. -/
def readLong (word : String) (name : List Char) (value? : Option String) (w : Words) :
    Except UsageError (Words × Awaiting) :=
  match String.ofList name, value? with
  | "command", .none => .ok (w, .command)
  | "command", some source => do return (← w.setCommand source, .nothing)
  | "quiet", .none => do return (← w.setQuiet, .nothing)
  | "version", .none => .ok ({ w with version := true }, .nothing)
  | "quiet", some _ => .error (.unwantedValue "--quiet")
  | "version", some _ => .error (.unwantedValue "--version")
  | _, _ => .error (.unknownOption word)

/-- The part of a long option after its equals sign. -/
def joinedValue? (cs : List Char) : Option String :=
  match cs.dropWhile (· ≠ '=') with
  | [] => none
  | _ :: value => some (String.ofList value)

/-- Sorts the words of a command line. -/
def sortWords : List String → Awaiting → Words → Except UsageError Words
  | [], .nothing, w => .ok w
  | [], .command, _ => .error (.missingValue "--command <SOURCE>")
  | word :: rest, awaiting, w =>
    if w.version then .ok w
    else
      match word.toList, awaiting with
      | '-' :: _ :: _, .command => .error (.missingValue "--command <SOURCE>")
      | _, .command => do sortWords rest .nothing (← w.setCommand word)
      | ['-', '-'], .nothing => .ok { w with others := rest.reverse ++ w.others }
      | '-' :: '-' :: cs, .nothing => do
        let (w, awaiting) ← readLong word (cs.takeWhile (· ≠ '=')) (joinedValue? cs) w
        sortWords rest awaiting w
      | '-' :: c :: cs, .nothing => do
        let (w, awaiting) ← readShort word (c :: cs) w
        sortWords rest awaiting w
      | _, .nothing => sortWords rest .nothing { w with others := word :: w.others }

/-- What a command line asks for. -/
inductive Invocation where
  | version
  /-- Run the given source. -/
  | command (source : String) (arguments : List String) (quiet : Bool)
  /-- Run the source in a file. -/
  | script (path : String) (arguments : List String) (quiet : Bool)
  /-- Run line after line from the standard input. -/
  | session
  deriving DecidableEq, Repr

/-- Understands a command line: with a command, all other words are its arguments; without one, the
first of them names a file. -/
def Invocation.ofWords (words : List String) : Except UsageError Invocation := do
  let w ← sortWords words .nothing .none
  if w.version then return .version
  match w.command?, w.others.reverse with
  | some source, arguments => return .command source arguments w.quiet
  | none, path :: arguments => return .script path arguments w.quiet
  | none, [] => return .session

end GodelWhile.CommandLine
