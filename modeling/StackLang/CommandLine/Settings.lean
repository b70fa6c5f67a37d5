import StackLang.Text.Decimal

/-!
# Settings of the environment

Two variables set how much is logged and how deep calls may nest. A variable that is missing
or empty counts as not set; so does one that is no number of its range, with a warning.
-/

set_option autoImplicit false

namespace StackLang.CommandLine

open Text (readCounter)

/-- What the environment asks for. -/
structure Settings where
  verbosity : UInt8 := 0
  maxDepth : Option UInt64 := none
deriving DecidableEq

/-- The variable that sets the verbosity. -/
def verbosityVariable : String := "OBSOLETE_VERBOSITY"

/-- The variable that limits the number of open calls. -/
def maxDepthVariable : String := "OBSOLETE_MAX_CALL_DEPTH"

namespace Settings

/-- Messages of a level are logged from that verbosity on. -/
def logs (s : Settings) (level : UInt8) : Bool := level ≤ s.verbosity

/-- The number below `size` that a variable holds, and the warning if it holds none. -/
def readVariable (size : Nat) (key : String) (value : Option String) :
    Option Nat × List String :=
  match value with
  | none => (none, [])
  | some text =>
    match readCounter size text.toList with
    | .ok n => (some n, [])
    | .error .empty => (none, [])
    | .error fault =>
      (none, ["Ignoring env var " ++ key ++ " with value " ++ text ++ ": " ++ fault.message])

/-- The settings, and the warnings in the order of the variables. -/
def ofEnvironment (environment : String → Option String) : Settings × List String :=
  let (verbosity, first) := readVariable UInt8.size verbosityVariable (environment verbosityVariable)
  let (maxDepth, second) := readVariable UInt64.size maxDepthVariable (environment maxDepthVariable)
  ({ verbosity := .ofNat (verbosity.getD 0), maxDepth := maxDepth.map .ofNat }, first ++ second)

end Settings

end StackLang.CommandLine
