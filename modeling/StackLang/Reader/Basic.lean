import StackLang.Reader.Line

/-!
# The reader

A reader turns lines into code, one after the other, and keeps the functions that they
define. It counts all lines handed to it, those with faults included.
-/

set_option autoImplicit false

namespace StackLang

/-- The functions known so far, and the number of lines read. -/
structure Reader where
  functions : Dictionary := .empty
  linesRead : Nat := 0
deriving DecidableEq

namespace Reader

/-- The code of a line given by its tokens, or the fault in it, and the functions known
after it. -/
def readTokens (functions : Dictionary) (tokens : List Token) :
    Dictionary × Except SyntaxFault Code :=
  let (state, fault?) := LineState.feed { functions } tokens
  match fault? <|> state.endFault? with
  | none => (state.functions, .ok state.code.reverse)
  | some fault => (state.functions, .error fault)

/-- Reads a line. Definitions completed before a fault stay. -/
def readLine (r : Reader) (line : String) : Reader × Except SyntaxError Code :=
  let number := r.linesRead + 1
  let (functions, code) := readTokens r.functions (Token.scan line)
  ({ functions, linesRead := number }, code.mapError fun fault => { line := number, fault })

end Reader

end StackLang
