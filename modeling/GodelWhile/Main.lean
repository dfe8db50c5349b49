import GodelWhile.CommandLine.Process

/-! # The program

The outer layer: the console of the system, with its files, its standard input and outputs and its
clock, and the run of the program over it. -/

namespace GodelWhile.CommandLine

/-- Reads the source text in a file. -/
def readSource (path : String) : IO (Except ReadError String) := do
  try
    return sourceOfBytes (← IO.FS.readBinFile path)
  catch
    | .noFileOrDirectory _ _ _ => return .error .noSuchFile
    | .inappropriateType _ _ _ => return .error .isDirectory
    | .permissionDenied _ code details => return .error (.other s!"{details} (os error {code})")
    | e => return .error (.other e.toString)

/-- Nanoseconds in milliseconds, with all their decimals but closing zeros. -/
def millisecondsText (nanoseconds : Nat) : String :=
  let whole := toString (nanoseconds / 1000000)
  let digits := (toString (1000000 + nanoseconds % 1000000)).toList.tail
  match (digits.reverse.dropWhile (· = '0')).reverse with
  | [] => whole
  | decimals => whole ++ "." ++ String.ofList decimals

/-- The console of the system. -/
def systemConsole : Console IO where
  read := readSource
  line? := do
    let line ← (← IO.getStdin).getLine
    return if line.isEmpty then none else some line
  put stdout stderr := do
    (← IO.getStdout).putStr stdout
    (← IO.getStdout).flush
    (← IO.getStderr).putStr stderr
  timed run := do
    let before ← IO.monoNanosNow
    let ending ← IO.lazyPure run
    let after ← IO.monoNanosNow
    return (ending, millisecondsText (after - before))

end GodelWhile.CommandLine

open GodelWhile.CommandLine in
/-- Does what the command line asks for. -/
def main (words : List String) : IO UInt32 := do
  return (← runWords systemConsole words).toUInt32
