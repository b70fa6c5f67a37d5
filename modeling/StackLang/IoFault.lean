/-!
# Faults of the outside world

What can go wrong where a program meets its input and its output.
-/

set_option autoImplicit false

namespace StackLang

/-- Why a stream cannot be read or written. -/
inductive IoFault where
  /-- Only a part of what was written had room. -/
  | sinkFull
  /-- The sink does not flush. -/
  | flushRefused
  /-- A line of the input is not UTF-8. -/
  | invalidText
  /-- There is no file of that name. -/
  | missingFile
deriving DecidableEq

namespace IoFault

/-- The wording of a fault. -/
def message : IoFault → String
  | .sinkFull => "failed to write whole buffer"
  | .flushRefused => "flush refused"
  | .invalidText => "stream did not contain valid UTF-8"
  | .missingFile => "No such file or directory (os error 2)"

end IoFault

end StackLang
