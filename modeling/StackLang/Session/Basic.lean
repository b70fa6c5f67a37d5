import StackLang.Reader.Basic
import StackLang.Machine.Run
import StackLang.Session.Error

/-!
# Sessions

A session runs lines one after the other. Functions, stack, output and counters last from
line to line, and an error ends the line and not the session. Nothing of a line runs if the
line cannot be read.
-/

set_option autoImplicit false

namespace StackLang

/-- The state between two lines. -/
structure Session (σ : Type) where
  reader : Reader := {}
  machine : Machine σ
  /-- The number of lines handed to the session. -/
  linesRun : Nat := 0

namespace Session

variable {σ : Type}

/-- A session that has run nothing. -/
def start (stack : Stack) (sink : Sink) (seen : σ) : Session σ :=
  { machine := { stack, sink, seen } }

/-- Reads a line and runs it. -/
def runLine (host : Host σ) (s : Session σ) (line : String) :
    Session σ × Except SessionError Unit :=
  let number := s.linesRun + 1
  match s.reader.readLine line with
  | (reader, .error e) => ({ s with reader, linesRun := number }, .error (.reading number e))
  | (reader, .ok code) =>
    let announced := s.machine.note host (.line number code s.machine.stack.height)
    let (machine, result) := announced.run host reader.functions code
    ({ reader, machine, linesRun := number }, result.mapError (.running number))

end Session

end StackLang
