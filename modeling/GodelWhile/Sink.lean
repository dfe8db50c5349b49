/-! # Sinks

A sink takes the text a program writes. It may be limited to a number of bytes: a text that does not
fit is cut at the limit and reported. -/

namespace GodelWhile

/-- The bytes written so far, and how many fit at most. -/
structure Sink where
  limit : Option Nat
  written : ByteArray

namespace Sink

/-- A sink with nothing in it. -/
def empty (limit : Option Nat) : Sink := ⟨limit, ByteArray.empty⟩

/-- Whether a number of bytes fits. -/
def fits (limit : Option Nat) (size : Nat) : Bool :=
  match limit with
  | none => true
  | some k => size ≤ k

/-- The bytes up to the limit. -/
def cut (limit : Option Nat) (bytes : ByteArray) : ByteArray :=
  match limit with
  | none => bytes
  | some k => bytes.extract 0 k

/-- Writes a text: the sink after it, and whether all of the text fitted. -/
def write : Sink → String → Sink × Bool
  | ⟨limit, written⟩, text =>
    let all := written ++ text.toUTF8
    if fits limit all.size then (⟨limit, all⟩, true) else (⟨limit, cut limit all⟩, false)

/-- Bytes read as text. A character cut in two by the limit shows as the replacement character. -/
def readable (bytes : ByteArray) : String :=
  match String.fromUTF8? bytes with
  | some s => s
  | none =>
    let front? := [1, 2, 3].findSome? fun k => String.fromUTF8? (bytes.extract 0 (bytes.size - k))
    front?.getD "" ++ "\uFFFD"

/-- The text written after the first `start` bytes. -/
def textFrom (s : Sink) (start : Nat) : String :=
  readable (s.written.extract start s.written.size)

end Sink

end GodelWhile
