import StackLang.Token
import StackLang.Text.Decimal

/-!
# Faults of a line

Why a line cannot be read, with the token to blame, and the wording of each fault.
-/

set_option autoImplicit false

namespace StackLang

open Text (natText)

/-- A construct that ends with a word of its own. -/
inductive Construct where
  | definition (name : String)
  | conditional
deriving DecidableEq

namespace Construct

/-- The words that open the construct. -/
def opening : Construct → String
  | .definition name => "DEF " ++ name
  | .conditional => "IF"

/-- The word that closes the construct. -/
def closing : Construct → String
  | .definition _ => "END"
  | .conditional => "FI"

end Construct

/-- Why a line cannot be read. -/
inductive SyntaxFault where
  /-- A word that means nothing here. -/
  | unknownToken (token : Token)
  /-- A literal that is no 32-bit value. -/
  | invalidNumber (token : Token)
  /-- The line ends where the name of a function has to stand. -/
  | missingName
  /-- The line ends inside a construct, which was opened in the given column. -/
  | unterminated (construct : Construct) (column : Nat)
  /-- A closing or switching word with nothing to close or switch. -/
  | unexpectedToken (token : Token)
  /-- A definition that starts inside a definition. -/
  | nestedDefinition (column : Nat)
  /-- A conditional that starts outside a definition. -/
  | conditionalOutsideFunction (column : Nat)
deriving DecidableEq

/-- A fault and the number of the line it was found in, counted from 1. -/
structure SyntaxError where
  line : Nat
  fault : SyntaxFault
deriving DecidableEq

namespace SyntaxError

/-- The wording of a position. -/
def position (line column : Nat) : String :=
  "line " ++ natText line ++ ", column " ++ natText column

/-- The wording of an error. -/
def message (e : SyntaxError) : String :=
  match e.fault with
  | .unknownToken t =>
    "Unknown token `" ++ t.text ++ "` at " ++ position e.line t.column ++ "."
  | .invalidNumber t =>
    "Number `" ++ t.text ++ "` at " ++ position e.line t.column ++ " does not fit into 32 bits."
  | .missingName => "Unexpected end of line " ++ natText e.line ++ ", expected a function name."
  | .unterminated construct column =>
    "`" ++ construct.opening ++ "` at " ++ position e.line column ++ " is missing its `" ++
      construct.closing ++ "`."
  | .unexpectedToken t => "Unexpected `" ++ t.text ++ "` at " ++ position e.line t.column ++ "."
  | .nestedDefinition column =>
    "Function definitions cannot be nested (" ++ position e.line column ++ ")."
  | .conditionalOutsideFunction column =>
    "`IF` is only allowed inside a function body (" ++ position e.line column ++ ")."

end SyntaxError

end StackLang
