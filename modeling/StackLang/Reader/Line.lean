import StackLang.Reader.Error
import StackLang.Dictionary

/-!
# Reading a line token by token

The reading of a line is an automaton. Its state is what has been read so far: the
dictionary, the finished instructions of the line, and the constructs that are still open.
Each token either takes the state to the next one or is a fault; a definition enters the
dictionary at its `END`, whatever becomes of the rest of the line.

A word is taken for the first of these that it is:

* at top level: literal, fixed word, `DEF`, name of a function, fault;
* in a definition: `END` if no conditional is open, otherwise `FI` or the first `ELS`; then
  literal, fixed word, `IF`, name of a function or of the definition itself, fault.

Lists of instructions grow at their head, so they are newest first until they are closed.
-/

set_option autoImplicit false

namespace StackLang

open Text (readLiteral?)

/-- The meaning of a literal or a fixed word, which does not depend on where it stands. -/
def Token.plain? (t : Token) : Option (Except SyntaxFault Instruction) :=
  match readLiteral? t.text.toList with
  | some value =>
    if Int32.minValue.toInt ≤ value ∧ value ≤ Int32.maxValue.toInt then
      some (.ok (.number (Int32.ofInt value)))
    else some (.error (.invalidNumber t))
  | none => (Instruction.ofKeyword? t.text).map .ok

/-- A conditional without its `FI`, opened in the given column. The second branch is missing
before `ELS`. -/
structure OpenConditional where
  column : Nat
  nonzero : Code := []
  zero : Option Code := none
deriving DecidableEq

namespace OpenConditional

/-- Adds an instruction to the branch that is being read. -/
def add (c : OpenConditional) (i : Instruction) : OpenConditional :=
  match c.zero with
  | none => { c with nonzero := i :: c.nonzero }
  | some zero => { c with zero := some (i :: zero) }

/-- Goes over to the second branch at `ELS`. -/
def switch (c : OpenConditional) : OpenConditional := { c with zero := some [] }

/-- The conditional that is complete at `FI`. -/
def close (c : OpenConditional) : Instruction :=
  .branch c.nonzero.reverse (c.zero.getD []).reverse

end OpenConditional

/-- A definition without its `END`, opened in the given column, and the conditionals open in
it, innermost first. -/
structure OpenDefinition where
  column : Nat
  name : String
  body : Code := []
  conditionals : List OpenConditional := []
deriving DecidableEq

namespace OpenDefinition

/-- Adds an instruction to the innermost open construct. -/
def add (d : OpenDefinition) (i : Instruction) : OpenDefinition :=
  match d.conditionals with
  | [] => { d with body := i :: d.body }
  | c :: cs => { d with conditionals := c.add i :: cs }

/-- Reads a token that closes and switches nothing. -/
def readItem (functions : Dictionary) (d : OpenDefinition) (t : Token) :
    Except SyntaxFault OpenDefinition :=
  match t.plain? with
  | some (.ok i) => .ok (d.add i)
  | some (.error fault) => .error fault
  | none =>
    if t.text = "IF" then
      .ok { d with conditionals := { column := t.column } :: d.conditionals }
    else if t.text = "DEF" then .error (.nestedDefinition t.column)
    else if t.text = d.name ∨ functions.contains t.text then .ok (d.add (.call t.text))
    else if t.text = "END" ∨ t.text = "ELS" ∨ t.text = "FI" then .error (.unexpectedToken t)
    else .error (.unknownToken t)

/-- Reads a token that does not close the definition. -/
def step (functions : Dictionary) (d : OpenDefinition) (t : Token) :
    Except SyntaxFault OpenDefinition :=
  match d.conditionals with
  | [] => d.readItem functions t
  | c :: cs =>
    if t.text = "FI" then .ok ({ d with conditionals := cs }.add c.close)
    else if t.text = "ELS" ∧ c.zero = none then .ok { d with conditionals := c.switch :: cs }
    else d.readItem functions t

end OpenDefinition

/-- What is being read. -/
inductive Place where
  | topLevel
  /-- A `DEF` in the given column waits for its name. -/
  | name (column : Nat)
  | definition (d : OpenDefinition)
deriving DecidableEq

/-- What has been read of a line. -/
structure LineState where
  functions : Dictionary
  code : Code := []
  place : Place := .topLevel
deriving DecidableEq

namespace LineState

/-- Adds a finished top-level instruction. -/
def add (s : LineState) (i : Instruction) : LineState :=
  { s with code := i :: s.code }

/-- Reads a token at top level. -/
def readItem (s : LineState) (t : Token) : Except SyntaxFault LineState :=
  match t.plain? with
  | some (.ok i) => .ok (s.add i)
  | some (.error fault) => .error fault
  | none =>
    if t.text = "DEF" then .ok { s with place := .name t.column }
    else if s.functions.contains t.text then .ok (s.add (.call t.text))
    else if t.text = "IF" then .error (.conditionalOutsideFunction t.column)
    else .error (.unknownToken t)

/-- Completes a definition: its function gets its body, and the line an instruction. -/
def close (s : LineState) (d : OpenDefinition) : LineState :=
  { functions := s.functions.insert d.name d.body.reverse
    code := .define d.name d.body.reverse :: s.code
    place := .topLevel }

/-- Reads the next token. -/
def step (s : LineState) (t : Token) : Except SyntaxFault LineState :=
  match s.place with
  | .topLevel => s.readItem t
  | .name column => .ok { s with place := .definition { column, name := t.text } }
  | .definition d =>
    if t.text = "END" ∧ d.conditionals = [] then .ok (s.close d)
    else (d.step s.functions t).map fun d => { s with place := .definition d }

/-- Reads tokens up to the first fault. The state is the one before the faulty token. -/
def feed (s : LineState) : List Token → LineState × Option SyntaxFault
  | [] => (s, none)
  | t :: ts =>
    match s.step t with
    | .ok next => next.feed ts
    | .error fault => (s, some fault)

/-- The fault of a line that ends here, if something is still open. -/
def endFault? (s : LineState) : Option SyntaxFault :=
  match s.place with
  | .topLevel => none
  | .name _ => some .missingName
  | .definition d =>
    match d.conditionals with
    | [] => some (.unterminated (.definition d.name) d.column)
    | c :: _ => some (.unterminated .conditional c.column)

end LineState

end StackLang
