import StackLang.Reader.Error
import StackLang.Machine.Fault

/-!
# Errors of a session

Why a line or a program stops, and the wording of each cause.
-/

set_option autoImplicit false

namespace StackLang

open Text (natText)

/-- Why a session's step stops. Lines count from 1, over the whole session, and the line that
holds the count of a program is none of them. -/
inductive SessionError where
  /-- A line cannot be read. -/
  | reading (line : Nat) (error : SyntaxError)
  /-- A line was read and its run ended early. -/
  | running (line : Nat) (error : RunError)
  /-- The input is blank. -/
  | missingCount
  /-- The first word of the input is no count. -/
  | invalidCount (word : String)
  /-- The input ends before the counted lines do. -/
  | missingLines (expected read : Nat)
  | io (cause : IoFault)
deriving DecidableEq

namespace SessionError

/-- The wording of an error. -/
def message : SessionError → String
  | .reading line error => "Line " ++ natText line ++ ": " ++ error.message
  | .running line error => "Line " ++ natText line ++ ": " ++ error.message
  | .missingCount => "The input does not start with a line count."
  | .invalidCount word => "Invalid line count `" ++ word ++ "`."
  | .missingLines expected read =>
    "Expected " ++ natText expected ++ " program lines, but the input ended after " ++
      natText read ++ "."
  | .io cause => "I/O error: " ++ cause.message

end SessionError

end StackLang
