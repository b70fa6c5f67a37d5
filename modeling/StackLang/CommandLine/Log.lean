import StackLang.Machine.Event
import StackLang.CommandLine.Settings

/-!
# Log lines

What is written about a run, beside its output: lines from verbosity 10 on, calls from 20 on
and instructions from 30 on. A listing shows the code of each line whatever the verbosity is.
-/

set_option autoImplicit false

namespace StackLang.CommandLine

open Text (intText natText)

/-- Values in square brackets. -/
def valueList (values : List Int32) : String :=
  "[" ++ ", ".intercalate (values.map fun v => intText v.toInt) ++ "]"

/-- The log lines of an event. -/
def logLines (settings : Settings) (listing : Bool) : Event → List String
  | .line number code height =>
    (if listing then [natText number ++ ": " ++ Instruction.renderLine code] else []) ++
    (if settings.logs 10 then
      ["Running line " ++ natText number ++ " (" ++ natText code.length ++
        " instructions), stack " ++ natText height]
    else [])
  | .start i depth stack =>
    if settings.logs 30 then
      ["Executing " ++ i.mnemonic ++ " at depth " ++ natText depth ++ ", stack " ++
        natText stack.height ++ ", top3: " ++ valueList (stack.cells.take 3)]
    else []
  | .call name depth height =>
    if settings.logs 20 then
      ["Calling " ++ name ++ " at depth " ++ natText depth ++ ", stack " ++ natText height]
    else []
  | .push _ | .pop | .finish _ _ _ => []

/-- Keeps log lines, newest first. -/
def logger (settings : Settings) (listing : Bool) : Observer (List String) := fun log event =>
  (logLines settings listing event).reverse ++ log

end StackLang.CommandLine
