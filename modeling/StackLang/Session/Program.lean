import StackLang.Session.Basic
import StackLang.Text.Lines

/-!
# Counted programs

A program is a stream of bytes: a count, and that many lines of source. The count is the
first word of the first line that is not blank, and the rest of that line is ignored. Lines
are read as text one by one, each right before it runs, so what stands after the counted
lines does not matter.
-/

set_option autoImplicit false

namespace StackLang.Session

open Text (decode? lines readCounter)

variable {σ : Type}

/-- The count, and the lines after it. -/
def readCount : List (List UInt8) → Except SessionError (Nat × List (List UInt8))
  | [] => .error .missingCount
  | line :: rest =>
    match decode? line with
    | none => .error (.io .invalidText)
    | some text =>
      match Token.words text with
      | [] => readCount rest
      | word :: _ =>
        match readCounter UInt64.size word.toList with
        | .ok count => .ok (count, rest)
        | .error _ => .error (.invalidCount word)

/-- Runs lines up to the first error, until `expected` lines have been run; `read` of them have
been run before. -/
def runLines (host : Host σ) (expected read : Nat) (s : Session σ) :
    List (List UInt8) → Session σ × Except SessionError Unit
  | [] => (s, if read < expected then .error (.missingLines expected read) else .ok ())
  | line :: rest =>
    if read < expected then
      match decode? line with
      | none => (s, .error (.io .invalidText))
      | some text =>
        match s.runLine host text with
        | (next, .ok ()) => next.runLines host expected (read + 1) rest
        | (next, .error e) => (next, .error e)
    else (s, .ok ())

/-- Runs the lines of a program. -/
def runCounted (host : Host σ) (s : Session σ) (input : List UInt8) :
    Session σ × Except SessionError Unit :=
  match readCount (lines input) with
  | .ok (count, rest) => s.runLines host count 0 rest
  | .error e => (s, .error e)

/-- Runs a program and flushes the sink, whether or not the program succeeds. An error of the
program is reported before one of the flush. -/
def runProgram (host : Host σ) (s : Session σ) (input : List UInt8) :
    Session σ × Except SessionError Unit :=
  let (s, result) := s.runCounted host input
  let (sink, flushed) := s.machine.sink.flush
  ({ s with machine := { s.machine with sink } },
    match result with
    | .error e => .error e
    | .ok () => flushed.mapError .io)

/-- The output of a program on a fresh session without limits. -/
def outputOf (program : String) : Except SessionError String :=
  let host : Host Unit := { limits := {}, observe := .blind }
  let (s, result) := (start .empty {} ()).runProgram host program.toUTF8.toList
  result.map fun _ => s.machine.sink.text

end StackLang.Session
